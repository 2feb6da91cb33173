/-
  WHAT BECOMES OF A VALUE THAT EXPANSION DOES NOT READ.

  Values are joined without a look at them, and what is read of the joined value is what the patterns and
  the tests of the longhands take.  So a value that its own longhand does not take (`Recognised`), such as a
  keyword for every property on one longhand of many, may come back, be lost, or come back as the value of
  another longhand.  `unread_survives_iff` says which, for every store of plain longhands.

    1.  It comes back if its group was not folded, and then no longhand of the group has changed; or if the
        value that stands for the group (`Stands`) hands it down unread (`HandsDown`): the value is a keyword
        for every property, or the text is a side of a box, which is cut at its blanks without a look.
    2.  It becomes the value of another longhand if the value that stands for the group of that longhand
        sets it (`Sets`): handed down, as before, where it is the keyword of several longhands or a side of
        the box was dropped or fell apart, so that the others moved; or read, where a background or a list
        style finds it as another part, or a font as another slot.
    3.  Expanding fails if the values of a box are not one to four parts together, or those of a font are
        rejected together (`Garbles`).

  Nothing else can happen: what is sliced or taken out of a font is read again as the longhand that it
  went to (`recognised_of_mem_slices`, `recognised_of_font`).
-/
import CssShorthand.Proofs.Folding.Background
import CssShorthand.Proofs.Folding.Font
import CssShorthand.Proofs.Folding.ListStyle
import CssShorthand.Proofs.Folding.Stands
import CssShorthand.Proofs.Font.Words

namespace CssShorthand

open List

namespace Folding

/-- The value is read as the longhand's own: its part of a shorthand matches all of it, or the test of a
    font takes the one component that it is.  The family of a font takes any value. -/
inductive Recognised (n : String) (v : Text) : Prop
  | part {sh : Shorthand} {p : Part} (hp : p ∈ sh.parts) (hn : (p.suffix, n) ∈ sh.longhandOf)
    (hmatches : Pattern.Matches p.pattern v) (haccepts : p.accepts v = true)
  | word {suffix : String} {test : Component → Bool} {c : Component}
    (hn : (suffix, n) ∈ Shorthand.font.longhandOf) (htest : FontReading.test? suffix = some test)
    (hv : Component.significant (Component.parse v) = [c]) (hc : test c = true)
  | family (hn : n = "font-family")

/-- Whether the value is recognised. -/
def recognises (n : String) (v : Text) : Bool :=
  (Shorthand.all.any fun sh => sh.parts.any fun p =>
    sh.longhandOf.contains (p.suffix, n) && (p.pattern.ends v).contains [] && p.accepts v) ||
  (Shorthand.font.longhandOf.any fun x => x.2 == n &&
    match FontReading.test? x.1, Component.significant (Component.parse v) with
    | some test, [c] => test c
    | _, _ => false) ||
  n == "font-family"

/-- The test by computation agrees with the statement: the pattern of the longhand takes the whole value. -/
theorem recognises_iff {n : String} {v : Text} : recognises n v = true ↔ Recognised n v := by
  simp only [recognises, Bool.or_eq_true, any_eq_true, Bool.and_eq_true, contains_iff_mem,
    Pattern.nil_mem_ends_iff, beq_iff_eq]
  constructor
  · rintro ((⟨sh, -, p, hp, ⟨hn, hmatches⟩, haccepts⟩ | ⟨⟨suffix, n⟩, hn, rfl, htest⟩) | hn)
    · exact .part hp hn hmatches haccepts
    · split at htest
      · rename_i test c hsome hv
        exact .word hn hsome hv htest
      · contradiction
    · exact .family hn
  · rintro (⟨hp, hn, hmatches, haccepts⟩ | ⟨hn, htest, hv, hc⟩ | hn)
    · exact Or.inl (Or.inl ⟨_, Shorthand.mem_all _, _, hp, ⟨hn, hmatches⟩, haccepts⟩)
    · exact Or.inl (Or.inr ⟨_, hn, rfl, by rw [htest, hv]; exact hc⟩)
    · exact Or.inr hn

instance (n : String) (v : Text) : Decidable (Recognised n v) := decidable_of_iff _ recognises_iff

/-- A shorthand with the value `w` hands `v` down to the longhand without reading it. -/
inductive HandsDown (sh : Shorthand) (w : Text) (n : String) (v : Text) : Prop
  /-- The value is a keyword for every property. -/
  | keyword {k : String} (hn : n ∈ sh.longhands) (hk : cssWideKeyword? w = some k) (hv : v = k.toList)
  /-- The value is that of a box, and the text is the side that the longhand stands for. -/
  | side {b : BoxShorthand} {sides : Sides Text} {u : Text} (hsh : sh = .box b)
      (hk : cssWideKeyword? w = none) (hsides : Sides.ofValue w = .ok sides)
      (hu : (n, u) ∈ b.longhands.zip sides) (hv : declared? u = some v)

/-- A shorthand with the value `w` sets the longhand to `v`. -/
inductive Sets (sh : Shorthand) (w : Text) (n : String) (v : Text) : Prop
  /-- Without reading it. -/
  | handed (h : HandsDown sh w n v)
  /-- As the part of a background or a list style that is found in the value. -/
  | part {suffix : String} (hsh : sh = .background ∨ sh = .listStyle) (hk : cssWideKeyword? w = none)
      (hn : (suffix, n) ∈ sh.longhandOf) (hfound : (slice w sh.parts).get? suffix = some v)
  /-- As the slot of a font that the reader of fonts fills with it. -/
  | slot {suffix : String} {values : FontValues} {family : Option Text} {u : Text} (hsh : sh = .font)
      (hk : cssWideKeyword? w = none) (hreading : FontReading.ofValue w = .ok (.parts values family))
      (hn : (suffix, n) ∈ Shorthand.font.longhandOf)
      (hu : Expansion.fontPart? values family suffix = some u) (hv : declared? u = some v)

variable {s t : Store} {n : String} {v w : Text} {d : Declaration} {sh : Shorthand}

/-! ## What is read is read again -/

/-- What is found for a part of a background is matched by its pattern, the size without its slash. -/
theorem matches_of_found_background {p : Part} (hp : p ∈ Part.background) (h : Slices.Found p v w) :
    Pattern.Matches p.pattern w := by
  simp only [Part.background_eq, mem_cons, not_mem_nil, or_false] at hp
  rcases hp with rfl | rfl | rfl | rfl | rfl | rfl
  · exact h.matches_pattern rfl
  · exact h.matches_pattern rfl
  · exact h.matches_pattern rfl
  · exact h.matches_pattern rfl
  · exact Part.matches_of_found_size h
  · exact h.matches_pattern rfl

/-- **What is sliced out of a background or a list style** is declared as it is, and read again. -/
theorem recognised_of_mem_slices (hsh : sh = .background ∨ sh = .listStyle) (hmark : '!' ∉ v)
    {e : String × Text} (he : e ∈ (slice v sh.parts).entries sh.longhandOf) : AsIs e.2 ∧ Recognised e.1 e.2 := by
  obtain ⟨p, hp, hn, hfound⟩ := Slices.found_of_mem_entries he
  have hnone : '!' ∉ e.2 := fun hm => (hfound.mem_or_eq _ hm).elim hmark (by decide)
  rcases hsh with rfl | rfl
  · have hmatches := matches_of_found_background hp hfound
    exact ⟨.of_background hp hmatches hnone, .part hp hn hmatches hfound.accepts⟩
  · have hmatches := hfound.matches_pattern (followsSlash_of_mem_listStyle hp)
    exact ⟨.of_listStyle hp hmatches hnone, .part hp hn hmatches hfound.accepts⟩

/-- A shorthand that is sliced is not a box. -/
theorem ne_box_of_sliced (hsh : sh = .background ∨ sh = .listStyle) (b : BoxShorthand) : sh ≠ .box b := by
  rcases hsh with rfl | rfl <;> exact nofun

/-- **What is taken out of a font** is declared as it is, and read again, but for the family. -/
theorem recognised_of_font {u : FontValues} {family : Option Text} (h : FontReading.ofValue v = .ok (.parts u family))
    {suffix : String} (hn : (suffix, n) ∈ Shorthand.font.longhandOf)
    (hw : Expansion.fontPart? u family suffix = some w) : n = "font-family" ∨ AsIs w ∧ Recognised n w := by
  have htests : ∀ x ∈ Shorthand.font.longhandOf, x.2 = "font-family" ∨ (FontReading.test? x.1).isSome := by
    decide
  rcases htests _ hn with hfamily | htest
  · exact Or.inl hfamily
  · obtain ⟨test, htest⟩ := Option.isSome_iff_exists.mp htest
    obtain ⟨c, hspelled, hword, hc⟩ := FontReading.exists_spelled_of_ofValue h htest hw
    refine Or.inr ⟨OfFont.asIs_spelled hspelled hword, .word hn htest ?_ hc⟩
    rw [hspelled.parse_eq, Component.significant, filter_singleton, hword.isSeparator_eq]
    rfl

/-! ## What a shorthand sets -/

/-- What is stored as it is is declared as it is. -/
theorem AsIs.declared? (h : AsIs w) : CssShorthand.declared? w = some w := by
  rw [CssShorthand.declared?, h.declarationOfText?]
  rfl

/-- A keyword for every property is declared as it is. -/
theorem declared?_keyword {k : String} (hk : cssWideKeyword? w = some k) : declared? k.toList = some k.toList := by
  obtain ⟨hplain, hnil⟩ := isPlain_of_cssWide hk
  exact (AsIs.of_plain hnil hplain).declared?

/-- What is sliced out of a background or a list style sets the longhand of its part. -/
theorem Sets.of_mem_slices (hsliced : sh = .background ∨ sh = .listStyle) (hk : cssWideKeyword? w = none)
    (hmark : '!' ∉ w) {u : Text} (hu : (n, u) ∈ (slice w sh.parts).entries sh.longhandOf)
    (hv : declared? u = some v) : Sets sh w n v := by
  rw [(recognised_of_mem_slices hsliced hmark hu).1.declared?] at hv
  obtain ⟨⟨suffix, m⟩, hm, hfound, rfl⟩ := Slices.mem_entries_iff.mp hu
  exact .part hsliced hk hm (hfound.trans hv)

/-- What a shorthand makes of a value that is no keyword for every property is what `Sets` says: one case for
    each way in which values are read. -/
theorem Sets.of_expandOwn (hsh : sh ∈ ofLonghands) (hmark : (∀ b, sh ≠ .box b) → '!' ∉ w)
    (hk : cssWideKeyword? w = none) {es : List (String × Text)} {ignored : Text}
    (hexpand : sh.expandOwn w = .ok (.longhands es ignored)) {u : Text} (hu : (n, u) ∈ es)
    (hv : declared? u = some v) : Sets sh w n v := by
  cases sh with
  | box b =>
    dsimp only [Shorthand.expandOwn] at hexpand
    split at hexpand
    · rename_i sides hsides
      obtain ⟨rfl, -⟩ := Expansion.longhands.inj (Except.ok.inj hexpand)
      exact .handed (.side rfl hk hsides hu hv)
    · cases hexpand
  | font =>
    dsimp only [Shorthand.expandOwn] at hexpand
    split at hexpand
    · rename_i reading hreading
      cases reading with
      | system => cases hexpand
      | parts values family =>
        obtain ⟨rfl, -⟩ := Expansion.longhands.inj (Except.ok.inj hexpand)
        obtain ⟨⟨suffix, m⟩, hm, hslot⟩ := mem_filterMap.mp hu
        obtain ⟨x, hx, heq⟩ := Option.map_eq_some_iff.mp hslot
        obtain ⟨rfl, rfl⟩ := Prod.mk.inj heq
        exact .slot rfl hk hreading hm hx hv
    · cases hexpand
  | background =>
    obtain ⟨rfl, -⟩ := Expansion.longhands.inj (Except.ok.inj hexpand)
    exact .of_mem_slices (Or.inl rfl) hk (hmark nofun) hu hv
  | listStyle =>
    obtain ⟨rfl, -⟩ := Expansion.longhands.inj (Except.ok.inj hexpand)
    exact .of_mem_slices (Or.inr rfl) hk (hmark nofun) hu hv
  | border => exact absurd rfl (ne_of_mem_ofLonghands hsh).1
  | borderSide side => exact absurd rfl ((ne_of_mem_ofLonghands hsh).2 side)

/-- What `Sets` says is made of the value. -/
theorem Sets.exists_expand (h : Sets sh w n v) (hmark : (∀ b, sh ≠ .box b) → '!' ∉ w) :
    ∃ es ignored, sh.expand w = .ok (.longhands es ignored) ∧ ∃ u, (n, u) ∈ es ∧ declared? u = some v := by
  cases h with
  | handed h =>
    cases h with
    | keyword hn hk hv =>
      refine ⟨_, [], by rw [Shorthand.expand, hk], _, mem_map.mpr ⟨n, hn, rfl⟩, ?_⟩
      rw [declared?_keyword hk, hv]
    | side hsh hk hsides hu hv =>
      subst hsh
      exact ⟨_, [], by simp [Shorthand.expand, hk, Shorthand.expandOwn, hsides], _, hu, hv⟩
  | part hsliced hk hm hfound =>
    have hu : (n, v) ∈ (slice w sh.parts).entries sh.longhandOf :=
      Slices.mem_entries_iff.mpr ⟨(_, n), hm, hfound, rfl⟩
    refine ⟨(slice w sh.parts).entries sh.longhandOf, (slice w sh.parts).remaining, ?_, v, hu,
      (recognised_of_mem_slices hsliced (hmark (ne_box_of_sliced hsliced)) hu).1.declared?⟩
    rcases hsliced with rfl | rfl <;> (rw [Shorthand.expand, hk]; rfl)
  | @slot suffix values family u hsh hk hreading hm hu hv =>
    subst hsh
    have hexpand : Shorthand.font.expand w =
        .ok (.ofFont Shorthand.font.longhandOf (.parts values family)) := by
      simp [Shorthand.expand, hk, Shorthand.expandOwn, hreading]
    exact ⟨_, [], hexpand, u, mem_filterMap.mpr ⟨(suffix, n), hm, by dsimp only; rw [hu]; rfl⟩, hv⟩

/-- **What a shorthand sets** is what `Sets` says. -/
theorem mem_spread_iff_sets (hsh : sh ∈ ofLonghands) (hn : n ∈ sh.longhands)
    (hmark : (∀ b, sh ≠ .box b) → '!' ∉ w) :
    (n, ⟨v, false⟩) ∈ spread (sh.name, ⟨w, false⟩) ↔ Sets sh w n v := by
  have hne : n ≠ sh.name := by
    rintro rfl
    have hnone := ofName?_of_mem_longhands hsh hn
    rw [Shorthand.ofName?_name] at hnone
    cases hnone
  refine (mem_spread_iff (c := ⟨w, false⟩) (v := v) hne).trans ⟨?_, fun h => h.exists_expand hmark⟩
  rintro ⟨es, ignored, hexpand, u, hu, hv⟩
  dsimp only [Shorthand.expand] at hexpand
  cases hk : cssWideKeyword? w with
  | some k =>
    rw [hk] at hexpand
    obtain ⟨rfl, -⟩ := Expansion.longhands.inj (Except.ok.inj hexpand)
    obtain ⟨_, -, heq⟩ := mem_map.mp hu
    obtain ⟨rfl, rfl⟩ := Prod.mk.inj heq
    rw [declared?_keyword hk] at hv
    exact .handed (.keyword hn hk (Option.some.inj hv).symm)
  | none =>
    rw [hk] at hexpand
    exact .of_expandOwn hsh hmark hk hexpand hu hv

/-- **A value that is set and not read is handed down.** -/
theorem Sets.handsDown (h : Sets sh w n v) (hmark : (∀ b, sh ≠ .box b) → '!' ∉ w)
    (hread : ¬Recognised n v) : HandsDown sh w n v := by
  cases h with
  | handed h => exact h
  | part hsliced hk hm hfound =>
    have he : (n, v) ∈ (slice w sh.parts).entries sh.longhandOf :=
      Slices.mem_entries_iff.mpr ⟨(_, n), hm, hfound, rfl⟩
    exact absurd (recognised_of_mem_slices hsliced (hmark (ne_box_of_sliced hsliced)) he).2 hread
  | slot hsh hk hreading hm hu hv =>
    rcases recognised_of_font hreading hm hu with hfamily | ⟨hasIs, hrecognised⟩
    · exact absurd (.family hfamily) hread
    · rw [hasIs.declared?] at hv
      exact absurd (Option.some.inj hv ▸ hrecognised) hread

/-! ## What survives -/

/-- What is written for a group that is no box holds no mark. -/
theorem Unfolded.not_mem_of_stands (h : Unfolded s) (hstands : Stands s sh w) (hbox : ∀ b, sh ≠ .box b) :
    '!' ∉ w := by
  cases hstands with
  | written hv hw _ =>
    obtain ⟨d, hd, rfl⟩ := Option.map_eq_some_iff.mp hw
    exact (Cleaning.declarationOfText?_of_not_mem (h.not_mem_foldText? hv) hd).2
  | border => exact absurd rfl (hbox _)

/-- **Sides that are kept as they are come back as they were**, unless `border` takes up the box. -/
theorem Unfolded.get?_after_of_kept (h : Unfolded s) {b : BoxShorthand} {v : Sides Text}
    (hv : sides? b s = some v) (hkept : ∀ w ∈ v.toList, Kept w)
    (hborder : b.name ∈ borderBoxes → foldText? s .border = none) (hn : n ∈ (Shorthand.box b).longhands)
    (ht : Edit.expandAll.after (foldedAll s) = .ok t) : t.get? n = s.get? n := by
  have hsh : .box b ∈ ofLonghands := by cases b <;> decide
  obtain ⟨d, hd, hplain, hspread⟩ := restores_of_kept (b := b) hkept
  have hd' : d = ⟨d.value, false⟩ := by rw [← hplain]
  have hstands : Stands s (.box b) d.value :=
    .written (by rw [foldText?, hv]; rfl) (by rw [declared?, hd]; rfl) hborder
  -- Each side sets its longhand to what the longhand was.
  have hside : ∀ u, (n, u) ∈ b.longhands.zip v → s.plain? n = some u → t.get? n = s.get? n := by
    intro u hu hplain
    rw [Store.plain?_eq_some_iff.mp hplain]
    refine (h.get?_after_iff hsh hn ht).mpr (Or.inr ⟨d.value, hstands, ?_⟩)
    rw [← hd', show (Shorthand.box b).name = b.name from rfl, hspread]
    exact mem_map.mpr ⟨(n, u), hu, rfl⟩
  obtain ⟨htop, hright, hbottom, hleft⟩ := sides?_eq_some_iff.mp hv
  have hcases : n = b.longhands.top ∨ n = b.longhands.right ∨ n = b.longhands.bottom ∨ n = b.longhands.left := by
    simpa [Shorthand.longhands, Sides.toList] using hn
  rcases hcases with rfl | rfl | rfl | rfl
  · exact hside v.top (by simp [Sides.zip, Sides.toList]) htop
  · exact hside v.right (by simp [Sides.zip, Sides.toList]) hright
  · exact hside v.bottom (by simp [Sides.zip, Sides.toList]) hbottom
  · exact hside v.left (by simp [Sides.zip, Sides.toList]) hleft

/-- **When a value that is not read survives.**  In a store of longhands that are not important and hold no
    marks, let a longhand have a value that is not its own.  Then folding all succeeds, and expanding all
    fails afterwards exactly if a box or a font was written that cannot be read.  If it succeeds:

    *   the longhand has the same value again if and only if its group was not folded, and then no longhand
        of the group has changed, or the value that stands for the group hands it down;
    *   a longhand that had another value, or none, has the value afterwards if and only if the value that
        stands for its own group sets it;
    *   in a box whose sides are all kept as they are, and which `border` does not take up, no side has
        changed: a side moves only where one was dropped or fell apart. -/
theorem unread_survives_iff (h : Unfolded s) (hsh : sh ∈ ofLonghands) (hn : n ∈ sh.longhands)
    (hd : s.get? n = some d) (hread : ¬Recognised n d.value) :
    ∃ u, Edit.foldAll.after s = .ok u ∧ ((∃ f, Edit.expandAll.after u = .error f) ↔ Garbles s) ∧
      ∀ t, Edit.expandAll.after u = .ok t →
        (t.get? n = some d ↔ foldText? s sh = none ∨ ∃ w, Stands s sh w ∧ HandsDown sh w n d.value) ∧
        (foldText? s sh = none → ∀ m ∈ sh.longhands, t.get? m = s.get? m) ∧
        (∀ a ∈ ofLonghands, ∀ m ∈ a.longhands, s.get? m ≠ some d →
          (t.get? m = some d ↔ ∃ w, Stands s a w ∧ Sets a w m d.value)) ∧
        ∀ b v, sh = .box b → sides? b s = some v → (∀ w ∈ v.toList, Kept w) →
          (b.name ∈ borderBoxes → foldText? s .border = none) → ∀ m ∈ sh.longhands, t.get? m = s.get? m := by
  -- What stands for a group sets the value plainly, as all is declared in the store.
  have hplain : d = ⟨d.value, false⟩ := by rw [← h.important_eq (sh.trimName_longhand n hn) hd]
  have hsets : ∀ {a : Shorthand} {m : String} {w : Text}, a ∈ ofLonghands → m ∈ a.longhands → Stands s a w →
      ((m, d) ∈ spread (a.name, ⟨w, false⟩) ↔ Sets a w m d.value) := by
    intro a m w ha hm hstands
    rw [← mem_spread_iff_sets ha hm (h.not_mem_of_stands hstands), ← hplain]
  refine ⟨foldedAll s, after_foldAll s, h.exists_error_iff_garbles, fun t ht => ⟨?_, ?_, ?_, ?_⟩⟩
  · rw [h.get?_after_iff hsh hn ht]
    refine or_congr (and_iff_left hd) (exists_congr fun w => and_congr_right fun hstands => ?_)
    rw [hsets hsh hn hstands]
    exact ⟨fun hset => hset.handsDown (h.not_mem_of_stands hstands) hread, .handed⟩
  · exact fun hnone m hm => h.get?_after_of_not_folded hsh hm hnone ht
  · intro a ha m hm hother
    rw [h.get?_after_iff ha hm ht, or_iff_right fun hleft => hother hleft.2]
    exact exists_congr fun w => and_congr_right fun hstands => hsets ha hm hstands
  · rintro b v rfl hv hkept hborder m hm
    exact h.get?_after_of_kept hv hkept hborder hm ht

/-- Four styles of a border, of which one is a variable and one a comment, which is dropped: three sides are
    left, and the variable is that of the left side as well. -/
def droppedSide : Store :=
  .ofList [("border-top-style", .text "solid".toList), ("border-right-style", .text "var(--s)".toList),
    ("border-bottom-style", .text "/**/".toList), ("border-left-style", .text "dashed".toList)]

/-- A comment for one of four sides: the other three are left to share, so the value of the right side comes
    back as that of the left one as well. -/
theorem droppedSide_unread_survives_iff :
    ∃ d, Unfolded droppedSide ∧ .box .borderStyle ∈ ofLonghands ∧
      "border-right-style" ∈ (Shorthand.box .borderStyle).longhands ∧
      droppedSide.get? "border-right-style" = some d ∧ ¬Recognised "border-right-style" d.value ∧
      ∃ u, Edit.foldAll.after droppedSide = .ok u ∧
        ((∃ f, Edit.expandAll.after u = .error f) ↔ Garbles droppedSide) ∧
        ∀ t, Edit.expandAll.after u = .ok t →
          (t.get? "border-right-style" = some d ↔ foldText? droppedSide (.box .borderStyle) = none ∨
            ∃ w, Stands droppedSide (.box .borderStyle) w ∧
              HandsDown (.box .borderStyle) w "border-right-style" d.value) ∧
          (foldText? droppedSide (.box .borderStyle) = none →
            ∀ m ∈ (Shorthand.box .borderStyle).longhands, t.get? m = droppedSide.get? m) ∧
          (∀ a ∈ ofLonghands, ∀ m ∈ a.longhands, droppedSide.get? m ≠ some d →
            (t.get? m = some d ↔ ∃ w, Stands droppedSide a w ∧ Sets a w m d.value)) ∧
          ∀ b v, .box .borderStyle = Shorthand.box b → sides? b droppedSide = some v →
            (∀ w ∈ v.toList, Kept w) → (b.name ∈ borderBoxes → foldText? droppedSide .border = none) →
            ∀ m ∈ (Shorthand.box .borderStyle).longhands, t.get? m = droppedSide.get? m := by
  have hunfolded := Unfolded.of_decide droppedSide (by decide +kernel)
  have hgroup : .box .borderStyle ∈ ofLonghands := by decide
  have hlonghand : "border-right-style" ∈ (Shorthand.box .borderStyle).longhands := by decide
  have hget : droppedSide.get? "border-right-style" = some ⟨"var(--s)".toList, false⟩ := by decide +kernel
  have hread : ¬Recognised "border-right-style" "var(--s)".toList := by decide +kernel
  exact ⟨_, hunfolded, hgroup, hlonghand, hget, hread,
    unread_survives_iff hunfolded hgroup hlonghand hget hread⟩

/-- The value of the right side becomes that of the left one. -/
example : ((Edit.foldAll.after droppedSide).bind fun u => Edit.expandAll.after u).toOption.bind
    (·.get? "border-left-style") = some ⟨"var(--s)".toList, false⟩ := by
  decide +kernel

/-- A keyword for every property on one longhand of a list style, and a position. -/
def inherited : Store :=
  .ofList [("list-style-type", .text "inherit".toList), ("list-style-position", .text "inside".toList)]

/-- **A value that is not read need not survive.**  The joined value is no keyword for every property, and the
    mark of a list is none. -/
theorem not_unread_survives :
    ¬∀ s : Store, Unfolded s →
      (∀ x ∈ s.entries, ';' ∉ x.2.value ∧ Component.Faultless (Component.parse x.2.value)) →
      ∀ sh ∈ [Shorthand.background, .listStyle, .font, .box .borderColor, .box .borderStyle, .box .borderWidth],
      ∀ n ∈ sh.longhands, ∀ d, s.get? n = some d → ¬Recognised n d.value →
        ∃ u t, Edit.foldAll.after s = .ok u ∧ Edit.expandAll.after u = .ok t ∧ t.get? n = some d ∧
          ∀ m c, m ≠ n → t.get? m = some c → c.value = d.value → s.get? m = some c := by
  intro h
  have hvalues : ∀ x ∈ inherited.entries, ';' ∉ x.2.value ∧
      ∀ l ∈ Component.flatList (Component.parse x.2.value), l.isFault = false := by
    decide +kernel
  have hget : inherited.get? "list-style-type" = some ⟨"inherit".toList, false⟩ := by decide +kernel
  obtain ⟨u, t, hu, ht, hkept, -⟩ := h inherited (Unfolded.of_decide inherited (by decide +kernel)) hvalues
    .listStyle (by simp) "list-style-type" (by decide) _ hget (by decide +kernel)
  have hlost : ((Edit.foldAll.after inherited).bind fun u => Edit.expandAll.after u).toOption.bind
      (·.get? "list-style-type") = none := by
    decide +kernel
  rw [hu] at hlost
  change (Edit.expandAll.after u).toOption.bind (·.get? "list-style-type") = none at hlost
  rw [ht] at hlost
  change t.get? "list-style-type" = none at hlost
  rw [hlost] at hkept
  cases hkept

end Folding

end CssShorthand
