/-
  FOLDING WHAT IS NO BOX: background, border, font and list style.

  For each of these folds: its frame, and the text that it writes under its target, said by what is
  plainly declared before.  The fold of the background first writes a slash before a size and puts a
  position before it, which is what `backgroundPart?` says of each part.

  The border and the font are folded when all of their longhands are there, the background and the list
  style from whatever is there. Each fold has two lemmas: its frame, which says what it leaves alone, and
  what is found under its target afterwards. Nothing else about a fold is used later.
-/
import CssShorthand.Proofs.Folding.Boxes

namespace CssShorthand

namespace Folding

/-! ## Background

  The program changes the store before it folds: it adds a position and puts a slash before the size.
  `Prepared` says what the store looks like in between, and everything is stated in terms of the store
  before.
-/

/-- No longhand of a background is listed twice. -/
theorem nodup_backgroundLonghands : backgroundLonghands.Nodup := Shorthand.background.nodup_longhands

/-- The names of the longhands need no trimming. -/
theorem trimName_backgroundLonghands : ∀ m ∈ backgroundLonghands, trimName m = m :=
  Shorthand.background.trimName_longhand

/-- The name of the shorthand needs no trimming. -/
theorem trimName_background : trimName "background" = "background" :=
  Shorthand.background.trimName_name

/-- A size as it is folded: after a slash, unless it is a keyword for every property. -/
def slashed (size : Text) : Text :=
  match sharedKeyword? [size] with
  | some _ => size
  | none => ['/', ' '] ++ size

/-- Whether the position is important, so that no size can be folded after it. -/
def positionKept (s : Store) : Bool := (s.get? "background-position").any (·.important)

/-- The parts that the background is folded from: the size is left out if it cannot follow its
    position. -/
def backgroundNames (s : Store) : List String :=
  if (s.plain? "background-size").isSome && positionKept s then
    backgroundLonghands.filter (· != "background-size")
  else backgroundLonghands

/-- The text of a part of the background as it is folded. -/
def backgroundPart? (s : Store) (n : String) : Option Text :=
  if n = "background-size" then (s.plain? n).map slashed
  else if n = "background-position" ∧ (s.plain? "background-size").isSome ∧ s.get? n = none then
    some initialPosition
  else s.plain? n

/-- The text that the background is folded into, if it is. -/
def backgroundText? (s : Store) : Option Text :=
  partsText? (backgroundNames s).length
    ((backgroundNames s).filterMap fun n => (backgroundPart? s n).map (n, ·))

/-- Only the size is changed, and it is not if it is a keyword of every property. -/
theorem get?_slashSize (size : Declaration) (s : Store) {n : String} (hn : trimName n = n) :
    (slashSize size s).get? n =
      if n = "background-size" ∧ sharedKeyword? [size.value] = none then
        some { size with value := ['/', ' '] ++ size.value }
      else s.get? n := by
  have htrim := trimName_backgroundLonghands "background-size" (by decide)
  unfold slashSize
  cases sharedKeyword? [size.value] with
  | some _ => simp
  | none =>
    rw [Store.get?_put, htrim, hn]
    by_cases h : n = "background-size"
    · simp [h]
    · simp [h, Ne.symm h]

/-- The store from which the parts of the background are taken. -/
structure Prepared (s t : Store) : Prop where
  get?_of_not_mem : ∀ n, trimName n = n → n ∉ backgroundNames s → t.get? n = s.get? n
  get?_important : ∀ n (d : Declaration), trimName n = n → d.important = true →
    (t.get? n = some d ↔ s.get? n = some d)
  plain?_eq : ∀ n ∈ backgroundNames s, t.plain? n = backgroundPart? s n

/-- What is read off a prepared store, in terms of the store before. -/
theorem Prepared.plainEntries_eq {s t : Store} (h : Prepared s t) :
    t.plainEntries (backgroundNames s) =
      (backgroundNames s).filterMap fun n => (backgroundPart? s n).map (n, ·) :=
  List.filterMap_congr fun n hn => by rw [h.plain?_eq n hn]

/-- A plain value is what the lookup says, nothing else. -/
theorem plain?_congr {s t : Store} {n : String} (h : s.get? n = t.get? n) :
    s.plain? n = t.plain? n := by
  rw [Store.plain?, Store.plain?, h]

/-- A fold of what is there takes out what was plainly declared, or nothing. -/
theorem get?_foldAvailable_of_mem {names : List String} (hnodup : names.Nodup)
    (hnames : ∀ m ∈ names, trimName m = m) {target : String} (htarget : trimName target = target)
    (s : Store) {n : String} (hn : n ∈ names) (hne : n ≠ target) :
    (foldAvailable names target s).1.get? n =
      if (partsText? names.length (s.plainEntries names)).isSome ∧ (s.plain? n).isSome then none
      else s.get? n := by
  rw [foldAvailable_eq hnodup]
  cases partsText? names.length (s.plainEntries names) with
  | none => simp
  | some v =>
    have hlong : ∀ m ∈ (s.plainEntries names).names, trimName m = m := fun m hm =>
      hnames m (Store.mem_names_plainEntries.mp hm).1
    have hmem : n ∈ (s.plainEntries names).names ↔ (s.plain? n).isSome := by
      rw [Store.mem_names_plainEntries, Option.isSome_iff_exists]
      exact and_iff_right hn
    dsimp only
    rw [get?_write s hlong htarget (hnames n hn), if_neg (Ne.symm hne)]
    simp [hmem]

/-- Without a size, or with an important position, nothing needs to be prepared. -/
theorem prepared_self {s : Store}
    (h : (s.plain? "background-size").isSome → positionKept s = true) : Prepared s s where
  get?_of_not_mem _ _ _ := rfl
  get?_important _ _ _ _ := Iff.rfl
  plain?_eq n hn := by
    unfold backgroundPart?
    by_cases hsize : (s.plain? "background-size").isSome
    · have hkept := h hsize
      simp only [backgroundNames, hsize, hkept, Bool.and_self, if_true, List.mem_filter,
        bne_iff_ne] at hn
      have hpos : ¬(n = "background-position" ∧ True ∧ s.get? n = none) := by
        rintro ⟨rfl, -, hnone⟩
        simp [positionKept, hnone] at hkept
      simp only [hsize, hn.2, hpos, if_false]
    · by_cases hns : n = "background-size"
      · subst hns
        simp at hsize
        simp [hsize]
      · simp [hns, hsize]

/-- The store with a position declared in it, for a size to stand after. -/
def positioned (s : Store) : Store :=
  match s.get? "background-position" with
  | some _ => s
  | none => s.add "background-position" (.text initialPosition) false

/-- The initial position is stored as it is written. -/
theorem declaration?_initialPosition :
    Value.declaration? (.text initialPosition) false = some ⟨initialPosition, false⟩ := by
  decide +kernel

/-- Only a missing position is added. -/
theorem get?_positioned (s : Store) {n : String} (hn : trimName n = n) :
    (positioned s).get? n =
      if n = "background-position" ∧ s.get? n = none then some ⟨initialPosition, false⟩ else s.get? n := by
  have htrim := trimName_backgroundLonghands "background-position" (by decide)
  unfold positioned
  cases hpos : s.get? "background-position" with
  | none =>
    dsimp only
    rw [Store.get?_add, htrim, hn, declaration?_initialPosition]
    by_cases h : n = "background-position"
    · simp [h, hpos]
    · simp [h, Ne.symm h]
  | some position =>
    by_cases h : n = "background-position"
    · simp [h, hpos]
    · simp [h]

/-- A position that is new stands at the end. -/
theorem names_positioned (s : Store) :
    (positioned s).names =
      s.names ++ if "background-position" ∈ s.names then [] else ["background-position"] := by
  have htrim := trimName_backgroundLonghands "background-position" (by decide)
  unfold positioned
  cases hpos : s.get? "background-position" with
  | none =>
    rw [Store.get?, htrim] at hpos
    have hnew : "background-position" ∉ s.names := Entries.find?_eq_none_iff.mp hpos
    dsimp only
    rw [Store.add, declaration?_initialPosition]
    dsimp only
    rw [Store.names_put_of_trim htrim, if_neg hnew, if_neg hnew]
  | some position =>
    have hold : "background-position" ∈ s.names :=
      Entries.mem_names_of_mem ((Store.get?_eq_some_iff htrim).mp hpos)
    rw [if_pos hold, List.append_nil]

/-- Stores that differ in what is not important have the same important declarations. -/
theorem get?_important_of_plain {a b : Option Declaration}
    (ha : ∀ e : Declaration, a = some e → e.important = false)
    (hb : ∀ e : Declaration, b = some e → e.important = false) {d : Declaration}
    (hd : d.important = true) : a = some d ↔ b = some d :=
  iff_of_false (fun h => by simp [ha d h] at hd) fun h => by simp [hb d h] at hd

/-- The store is prepared for a size that is folded. -/
theorem prepared_slashSize {s : Store} {size : Declaration}
    (hsize : s.get? "background-size" = some size) (himp : size.important = false)
    (hkept : positionKept s = false) : Prepared s (slashSize size (positioned s)) := by
  have hplain : s.plain? "background-size" = some size.value :=
    Store.plain?_eq_some_iff.mpr (by rw [hsize, ← himp])
  have hnames : backgroundNames s = backgroundLonghands := by simp [backgroundNames, hkept]
  constructor
  case get?_of_not_mem =>
    intro n hn hmem
    rw [hnames] at hmem
    have hns : n ≠ "background-size" := fun h => hmem (h ▸ by decide)
    have hnp : n ≠ "background-position" := fun h => hmem (h ▸ by decide)
    simp [get?_slashSize size _ hn, get?_positioned s hn, hns, hnp]
  case get?_important =>
    intro n d hn hd
    rw [get?_slashSize size _ hn, get?_positioned s hn]
    split
    · rename_i h
      rw [h.1, hsize]
      refine get?_important_of_plain (fun e he => ?_) (fun e he => ?_) hd
      · rw [← Option.some.inj he, himp]
      · rw [← Option.some.inj he, himp]
    · split
      · rename_i h
        rw [h.2]
        exact get?_important_of_plain (fun e he => by rw [← Option.some.inj he])
          (fun e he => absurd he (by simp)) hd
      · rfl
  case plain?_eq =>
    intro n hn
    have htrim := trimName_backgroundLonghands n (hnames ▸ hn)
    rw [backgroundPart?, Store.plain?, get?_slashSize size _ htrim, get?_positioned s htrim, hplain]
    -- The size gets its slash, a missing position is added, and the others are as they were.
    by_cases hns : n = "background-size"
    · subst hns
      cases hk : sharedKeyword? [size.value] with
      | none => simp [hplain, slashed, hk, himp]
      | some k => simp [hplain, slashed, hk, himp, hsize]
    · by_cases hnp : n = "background-position" ∧ s.get? n = none
      · obtain ⟨rfl, hnone⟩ := hnp
        simp [hnone]
      · have : ¬(n = "background-position" ∧ (some size.value).isSome = true ∧ s.get? n = none) :=
          fun h => hnp ⟨h.1, h.2.2⟩
        simp only [hns, hnp, this, false_and, if_false]
        rfl

/-- The size keeps its place. -/
theorem names_slashSize {size : Declaration} {s : Store} (h : "background-size" ∈ s.names) :
    (slashSize size s).names = s.names := by
  have htrim := trimName_backgroundLonghands "background-size" (by decide)
  unfold slashSize
  cases sharedKeyword? [size.value] with
  | some _ => rfl
  | none => rw [Store.names_put_of_trim htrim, if_pos h]

/-- The fold of the background: that of its parts, from the prepared store.  Nothing is prepared unless a
    size is folded, and then a position may be declared at the end. -/
theorem exists_prepared (s : Store) :
    ∃ t, Prepared s t ∧
      (foldBackground s).1 = (foldAvailable (backgroundNames s) "background" t).1 ∧
      if (s.plain? "background-size").isSome ∧ positionKept s = false then
        t.names = s.names ++ if "background-position" ∈ s.names then [] else ["background-position"]
      else t = s := by
  unfold foldBackground
  cases hsize : s.get? "background-size" with
  | none =>
    have hplain : s.plain? "background-size" = none := by simp [Store.plain?, hsize]
    exact ⟨s, prepared_self (by simp [hplain]), by simp [backgroundNames, hplain], by simp [hplain]⟩
  | some size =>
    cases himp : size.important with
    | true =>
      have hplain : s.plain? "background-size" = none := by simp [Store.plain?, hsize, himp]
      exact ⟨s, prepared_self (by simp [hplain]), by simp [backgroundNames, hplain, himp],
        by simp [hplain]⟩
    | false =>
      have hplain : s.plain? "background-size" = some size.value :=
        Store.plain?_eq_some_iff.mpr (by rw [hsize, ← himp])
      cases hkept : positionKept s with
      | true =>
        -- The position is important, so that the size is left out.
        obtain ⟨position, hpos, hpimp⟩ : ∃ d, s.get? "background-position" = some d ∧ d.important = true := by
          simpa [positionKept, Option.any_eq_true] using hkept
        refine ⟨s, prepared_self fun _ => hkept, ?_, by simp⟩
        simp [backgroundNames, hplain, hkept, himp, hpos, hpimp]
      | false =>
        refine ⟨_, prepared_slashSize hsize himp hkept, ?_, ?_⟩
        · cases hpos : s.get? "background-position" with
          | none => simp [backgroundNames, hkept, himp, positioned, hpos]
          | some position =>
            have hpimp : position.important = false := by simpa [positionKept, hpos] using hkept
            simp [backgroundNames, hkept, himp, positioned, hpos, hpimp]
        · have hmem : "background-size" ∈ (positioned s).names := by
            rw [names_positioned]
            exact List.mem_append_left _ (Entries.mem_names_of_mem ((Store.get?_eq_some_iff
              (trimName_backgroundLonghands "background-size" (by decide))).mp hsize))
          rw [if_pos ⟨by simp [hplain], rfl⟩, names_slashSize hmem, names_positioned]

/-- Folding a background is preparing the store and folding what is available then, in both branches of the
    program. -/
theorem foldBackground_eq (s : Store) :
    ∃ t, Prepared s t ∧
      (foldBackground s).1 = (foldAvailable (backgroundNames s) "background" t).1 := by
  obtain ⟨t, ht, hfold, -⟩ := exists_prepared s
  exact ⟨t, ht, hfold⟩

/-- No longhand takes part twice. -/
theorem nodup_backgroundNames (s : Store) : (backgroundNames s).Nodup := by
  unfold backgroundNames
  split
  · exact nodup_backgroundLonghands.filter _
  · exact nodup_backgroundLonghands

/-- Only longhands of a background take part. -/
theorem backgroundNames_subset (s : Store) : backgroundNames s ⊆ backgroundLonghands := by
  unfold backgroundNames
  split
  · exact List.filter_subset_self _
  · exact fun _ h => h

/-- Folding a background touches the shorthand and its longhands, and no important longhand: the slash before
    the size is put in front of a plain one only. -/
theorem frame_foldBackground : Frame foldBackground "background" backgroundLonghands where
  get?_of_not_mem s n hn hne hmem := by
    obtain ⟨t, ht, hfold⟩ := foldBackground_eq s
    have hsub := backgroundNames_subset s
    rw [hfold, (frame_foldAvailable (nodup_backgroundNames s)
      (fun m hm => trimName_backgroundLonghands m (hsub hm)) trimName_background).get?_of_not_mem t n
      hn hne fun h => hmem (hsub h)]
    exact ht.get?_of_not_mem n hn fun h => hmem (hsub h)
  get?_important s n d hn hne hd := by
    obtain ⟨t, ht, hfold⟩ := foldBackground_eq s
    have hsub := backgroundNames_subset s
    rw [hfold, (frame_foldAvailable (nodup_backgroundNames s)
      (fun m hm => trimName_backgroundLonghands m (hsub hm)) trimName_background).get?_important t n
      d hn hne hd]
    exact ht.get?_important n d hn hd

/-- What the fold makes of the background. -/
theorem get?_foldBackground (s : Store) :
    (foldBackground s).1.get? "background" =
      match backgroundText? s with
      | some v => Value.declarationOfText? v false
      | none => s.get? "background" := by
  obtain ⟨t, ht, hfold⟩ := foldBackground_eq s
  have hsub := backgroundNames_subset s
  rw [hfold, get?_foldAvailable (nodup_backgroundNames s)
    (fun m hm => trimName_backgroundLonghands m (hsub hm)) trimName_background, ht.plainEntries_eq,
    ht.get?_of_not_mem _ trimName_background fun h => absurd (hsub h) (by decide)]
  rfl

/-- A background with a size that can be folded is folded: the size stands behind a position. -/
theorem isSome_backgroundText? {s : Store} (hsize : (s.plain? "background-size").isSome)
    (hkept : positionKept s = false) : (backgroundText? s).isSome := by
  obtain ⟨size, hsize⟩ := Option.isSome_iff_exists.mp hsize
  obtain ⟨position, hposition⟩ : ∃ w, backgroundPart? s "background-position" = some w := by
    unfold backgroundPart?
    unfold positionKept at hkept
    cases hd : s.get? "background-position" with
    | none => exact ⟨initialPosition, by simp [hsize]⟩
    | some d => exact ⟨d.value, by simpa [Store.plain?, hd] using hkept⟩
  have hpart : backgroundPart? s "background-size" = some (slashed size) := by
    simp [backgroundPart?, hsize]
  have hsub : [("background-position", position), ("background-size", slashed size)].Sublist
      ((backgroundNames s).filterMap fun n => (backgroundPart? s n).map (n, ·)) := by
    have hnames : ["background-position", "background-size"].Sublist (backgroundNames s) := by
      rw [backgroundNames, hkept, Bool.and_false, if_neg Bool.false_ne_true]
      decide
    have := hnames.filterMap fun n => (backgroundPart? s n).map (n, ·)
    simpa [hposition, hpart] using this
  have hlength : 2 ≤ List.length _ := hsub.length_le
  rw [backgroundText?, partsText?, if_neg (Nat.not_lt.mpr hlength)]
  rfl

/-- A background with nothing to fold is left as it is, and not prepared. -/
theorem foldBackground_eq_self {s : Store} (h : backgroundText? s = none) : (foldBackground s).1 = s := by
  obtain ⟨t, ht, hfold, hprepared⟩ := exists_prepared s
  have hnot : ¬((s.plain? "background-size").isSome = true ∧ positionKept s = false) := fun hsize => by
    have := isSome_backgroundText? hsize.1 hsize.2
    rw [h] at this
    contradiction
  rw [if_neg hnot] at hprepared
  subst hprepared
  rw [backgroundText?, ← ht.plainEntries_eq] at h
  rw [hfold, foldAvailable_eq (nodup_backgroundNames t), h]

/-! ## Border

  The boxes have to be single components, which is asked when all three are there.
-/

/-- What the three boxes of the border are folded into, if they are. -/
def borderText? (s : Store) : Option Text :=
  match s.plain? "border-width", s.plain? "border-style", s.plain? "border-color" with
  | some width, some style, some color =>
    let values := [width, style, color]
    if values.all Component.isSingle then some ((sharedKeyword? values).getD (joined values))
    else none
  | _, _, _ => none

/-- The names of the boxes need no trimming. -/
theorem trimName_borderBoxes : ∀ m ∈ borderBoxes, trimName m = m := fun m hm =>
  Shorthand.border.trimName_longhand m (by revert m; decide)

/-- Folding a border writes its text in place of the three boxes. The program looks at the boxes one after
    another; what it needs is that each is plain and a single component. -/
theorem foldBorder_eq (s : Store) :
    (foldBorder s).1 =
      match borderText? s with
      | some v => write borderBoxes "border" v s
      | none => s := by
  have hall := allOf_fst s borderBoxes "border"
  simp only [borderBoxes, List.mapM_cons, List.mapM_nil] at hall
  unfold foldBorder borderText?
  simp only [borderBoxes]
  generalize allOf s ["border-width", "border-style", "border-color"] "border" = r at hall ⊢
  obtain ⟨o, notices⟩ := r
  dsimp only at hall
  -- If one of the three is missing, there is no text and nothing is folded.
  cases hw : s.plain? "border-width" with
  | none => simp [hall, hw]
  | some width =>
    cases hs : s.plain? "border-style" with
    | none => simp [hall, hw, hs]
    | some style =>
      cases hc : s.plain? "border-color" with
      | none => simp [hall, hw, hs, hc]
      | some color =>
        have ho : o = some [⟨width, false⟩, ⟨style, false⟩, ⟨color, false⟩] := by
          simpa [hw, hs, hc] using hall
        subst ho
        simp only [List.map_cons, List.map_nil]
        split <;> rfl

/-- Folding a border touches the border and its three boxes. -/
theorem frame_foldBorder : Frame foldBorder "border" borderBoxes := by
  refine frame_of_mapM trimName_borderBoxes Shorthand.border.trimName_name fun s => ?_
  rw [foldBorder_eq]
  cases hv : borderText? s with
  | none => exact Or.inl rfl
  | some v =>
    unfold borderText? at hv
    split at hv
    · rename_i w st c hw hs hc
      exact Or.inr ⟨v, [w, st, c], by simp [borderBoxes, hw, hs, hc], rfl⟩
    · contradiction

/-- What the store says of the border after its fold. -/
theorem get?_foldBorder (s : Store) :
    (foldBorder s).1.get? "border" =
      match borderText? s with
      | some v => Value.declarationOfText? v false
      | none => s.get? "border" := by
  rw [foldBorder_eq]
  cases borderText? s with
  | none => rfl
  | some v =>
    refine (get?_write s trimName_borderBoxes Shorthand.border.trimName_name
      Shorthand.border.trimName_name).trans ?_
    exact if_pos rfl

/-! ## Font and list style

  Both are instances of the general folds.
-/

/-- What the longhands of `font` are folded into, if they are. -/
def fontText? (s : Store) : Option Text :=
  match fontLonghands.mapM s.plain? with
  | some [style, variant, weight, size, lineHeight, family] =>
    some ((sharedKeyword? [style, variant, weight, size, lineHeight, family]).getD
      (fontValue ⟨style, variant, weight, size, lineHeight⟩ family))
  | _ => none

/-- Folding a font writes its text in place of the longhands, if all of them are plain. -/
theorem foldFont_eq (s : Store) :
    (foldFont s).1 =
      match fontText? s with
      | some v => write fontLonghands "font" v s
      | none => s := by
  have hall := allOf_fst s fontLonghands "font"
  unfold foldFont fontText?
  generalize allOf s fontLonghands "font" = r at hall ⊢
  obtain ⟨o, notices⟩ := r
  dsimp only at hall
  subst hall
  cases fontLonghands.mapM s.plain? with
  | none => rfl
  | some vs =>
    match vs with
    | [] | [_] | [_, _] | [_, _, _] | [_, _, _, _] | [_, _, _, _, _] => rfl
    | [_, _, _, _, _, _] => rfl
    | _ :: _ :: _ :: _ :: _ :: _ :: _ :: _ => rfl

/-- Folding a font touches the font and its longhands. -/
theorem frame_foldFont : Frame foldFont "font" fontLonghands := by
  refine frame_of_mapM Shorthand.font.trimName_longhand Shorthand.font.trimName_name fun s => ?_
  rw [foldFont_eq]
  cases hv : fontText? s with
  | none => exact Or.inl rfl
  | some v =>
    unfold fontText? at hv
    split at hv
    · rename_i hvs
      exact Or.inr ⟨v, _, hvs, rfl⟩
    · contradiction

/-- What the store says of the font after its fold. -/
theorem get?_foldFont (s : Store) :
    (foldFont s).1.get? "font" =
      match fontText? s with
      | some v => Value.declarationOfText? v false
      | none => s.get? "font" := by
  rw [foldFont_eq]
  cases fontText? s with
  | none => rfl
  | some v =>
    refine (get?_write s Shorthand.font.trimName_longhand Shorthand.font.trimName_name
      Shorthand.font.trimName_name).trans ?_
    exact if_pos rfl

/-- Folding a list style touches the shorthand and its longhands. -/
theorem frame_foldListStyle : Frame foldListStyle "list-style" listStyleLonghands :=
  frame_foldAvailable Shorthand.listStyle.nodup_longhands Shorthand.listStyle.trimName_longhand
    Shorthand.listStyle.trimName_name

/-- What the store says of the list style after its fold. -/
theorem get?_foldListStyle (s : Store) :
    (foldListStyle s).1.get? "list-style" =
      match partsText? 3 (s.plainEntries listStyleLonghands) with
      | some v => Value.declarationOfText? v false
      | none => s.get? "list-style" :=
  get?_foldAvailable Shorthand.listStyle.nodup_longhands Shorthand.listStyle.trimName_longhand
    Shorthand.listStyle.trimName_name s

end Folding

end CssShorthand
