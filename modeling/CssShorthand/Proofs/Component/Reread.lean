/-
  READING A LEXEME AGAIN.

  A text that begins as a lexeme is written, and of which this lexeme is read, is read up to the end of
  what is written and no further; and if a space or a semicolon is put behind the text, the same is read
  of it (`Lexeme.settles_read`).  Only ranges of code points need more: their digits must not go on.

  The route: for each kind of lexeme `Settles` says both things at once, that the reading ends where the
  written lexeme ends, and that a character which stops readers may be put behind the text. A reader that
  took more than the lexeme was written with would contradict the hypothesis that the lexeme was read; so
  the proofs compare two ends of one text. The kinds are dealt with one by one and put together in the order
  of the tests of the reader.
-/
import CssShorthand.Proofs.Component.Flat
import CssShorthand.Proofs.Component.Written

namespace CssShorthand

namespace UnicodeRange

/-- A range of code points does not go on here. -/
def Ends : Text → Prop
  | [] => True
  | c :: t => Name.isHexDigit c = false ∧ isWildcard c = false ∧
      (c = '-' → ∀ d u, t = d :: u → Name.isHexDigit d = false)

/-- As many characters of a class as may be taken are taken, before one that is not of the class. -/
theorem takeAtMost_append {p : Char → Bool} {n : Nat} {ds : Text} (hlen : ds.length ≤ n)
    (hds : ∀ c ∈ ds, p c = true) {t : Text} (ht : ∀ c u, t = c :: u → p c = false) :
    Name.takeAtMost p n (ds ++ t) = (ds, t) := by
  induction ds generalizing n with
  | nil =>
    cases n with
    | zero => rfl
    | succ n =>
      cases t with
      | nil => rfl
      | cons c u => simp [Name.takeAtMost, ht c u rfl]
  | cons d ds ih =>
    cases n with
    | zero => simp at hlen
    | succ n =>
      have := ih (by simpa using hlen) fun c hc => hds c (List.mem_cons_of_mem _ hc)
      simp [Name.takeAtMost, hds d (by simp), this]

/-- A hexadecimal digit stands for less than sixteen, whether it is a decimal digit, a small letter or a
    capital. -/
theorem hexValue_lt {c : Char} (hc : Name.isHexDigit c = true) : Name.hexValue c < 16 := by
  simp only [Name.isHexDigit, Bool.or_eq_true, Bool.and_eq_true, decide_eq_true_eq] at hc
  unfold Name.hexValue
  have ha : 'a'.val.toNat = 97 := rfl
  have hf : 'f'.val.toNat = 102 := rfl
  have hA : 'A'.val.toNat = 65 := rfl
  have hF : 'F'.val.toNat = 70 := rfl
  have h9 : '9'.val.toNat = 57 := rfl
  split
  · -- a decimal digit
    rename_i hdigit
    simp only [Char.isDigit, Bool.and_eq_true, decide_eq_true_eq, UInt32.le_iff_toNat_le] at hdigit
    have := hdigit.2
    show c.val.toNat - 48 < 16
    omega
  · rename_i hdigit
    have hc := hc.imp_left fun hc => hc.resolve_left hdigit
    split
    · -- a small letter
      rename_i hle
      rcases hc with hc | hc
      · have : c.val.toNat ≤ 'f'.val.toNat := hc.2
        show c.val.toNat - 87 < 16
        omega
      · have h₁ : c.val.toNat ≤ 'F'.val.toNat := hc.2
        have h₂ : 'a'.val.toNat ≤ c.val.toNat := hle
        omega
    · -- a capital
      rename_i hle
      rcases hc with hc | hc
      · exact absurd hc.1 hle
      · have : c.val.toNat ≤ 'F'.val.toNat := hc.2
        show c.val.toNat - 55 < 16
        omega

/-- Each digit that is read on adds a power. -/
theorem foldl_hexValue_lt {ds : Text} (hds : ∀ c ∈ ds, Name.isHexDigit c = true) {n k : Nat}
    (hn : n < 16 ^ k) : ds.foldl (fun n c => 16 * n + Name.hexValue c) n < 16 ^ (k + ds.length) := by
  induction ds generalizing n k with
  | nil => exact hn
  | cons c ds ih =>
    have hc := hexValue_lt (hds c (by simp))
    have hnext : 16 * n + Name.hexValue c < 16 ^ (k + 1) := by
      rw [Nat.pow_succ]
      omega
    have hrest := ih (fun d hd => hds d (List.mem_cons_of_mem _ hd)) hnext
    rw [List.foldl_cons, List.length_cons, show k + (ds.length + 1) = k + 1 + ds.length by omega]
    exact hrest

/-- So many hexadecimal digits spell a number below that power of sixteen. -/
theorem ofHexDigits_lt (ds : Text) (h : ∀ c ∈ ds, Name.isHexDigit c = true) :
    Name.ofHexDigits ds < 16 ^ ds.length := by
  have hfold := foldl_hexValue_lt h (n := 0) (k := 0) (by decide)
  rwa [Nat.zero_add] at hfold

/-- What is taken is of the class, and no longer than it may be. -/
theorem takeAtMost_fst {p : Char → Bool} (n : Nat) (t : Text) :
    (Name.takeAtMost p n t).1.length ≤ n ∧ ∀ c ∈ (Name.takeAtMost p n t).1, p c = true := by
  induction n generalizing t with
  | zero => simp [Name.takeAtMost]
  | succ n ih =>
    cases t with
    | nil => simp [Name.takeAtMost]
    | cons c t =>
      cases hc : p c with
      | false => simp [Name.takeAtMost, hc]
      | true =>
        obtain ⟨hlen, hall⟩ := ih t
        simp only [Name.takeAtMost, hc, if_true, List.length_cons, List.mem_cons]
        refine ⟨by omega, ?_⟩
        rintro d (rfl | hd)
        · exact hc
        · exact hall d hd

/-- The ends of a range have at most six digits. -/
theorem take_lt (t : Text) : (take t).1.1 < 16 ^ 6 ∧ (take t).1.2 < 16 ^ 6 := by
  have hdigits : ∀ u : Text, Name.ofHexDigits (Name.takeAtMost Name.isHexDigit 6 u).1 < 16 ^ 6 := by
    intro u
    obtain ⟨hlen, hall⟩ := takeAtMost_fst (p := Name.isHexDigit) 6 u
    exact Nat.lt_of_lt_of_le (ofHexDigits_lt _ hall) (Nat.pow_le_pow_right (by decide) hlen)
  unfold take
  dsimp only
  split
  · split
    · split
      · exact ⟨hdigits t, hdigits _⟩
      · exact ⟨hdigits t, hdigits t⟩
    · exact ⟨hdigits t, hdigits t⟩
  · obtain ⟨hlen, hall⟩ := takeAtMost_fst (p := Name.isHexDigit) 6 t
    obtain ⟨hwild, -⟩ := takeAtMost_fst (p := isWildcard)
      (6 - (Name.takeAtMost Name.isHexDigit 6 t).1.length) (Name.takeAtMost Name.isHexDigit 6 t).2
    have hfirst := ofHexDigits_lt _ hall
    generalize Name.ofHexDigits (Name.takeAtMost Name.isHexDigit 6 t).1 = first at hfirst ⊢
    generalize (Name.takeAtMost Name.isHexDigit 6 t).1.length = m at *
    generalize (Name.takeAtMost isWildcard (6 - m) (Name.takeAtMost Name.isHexDigit 6 t).2).1.length
      = k at *
    -- rfl := Digits and wildcards are six together, so the last code of the range is still below the bound.
    have hpow : Nat.pow 16 k = 16 ^ k := rfl
    have hpos : 0 < 16 ^ k := Nat.pow_pos (by decide)
    have hle : (first + 1) * 16 ^ k ≤ 16 ^ 6 :=
      calc (first + 1) * 16 ^ k ≤ 16 ^ m * 16 ^ k := Nat.mul_le_mul_right _ hfirst
        _ = 16 ^ (m + k) := (Nat.pow_add ..).symm
        _ ≤ 16 ^ 6 := Nat.pow_le_pow_right (by decide) (by omega)
    rw [Nat.add_mul, Nat.one_mul] at hle
    rw [hpow]
    dsimp only
    constructor <;> omega

/-- The code of a character is written with six digits at most, as many as an escape takes. -/
theorem length_upperHex {n : Nat} (h : n < 16 ^ 6) : (Name.upperHex n).length ≤ 6 := by
  rw [Name.upperHex, List.length_map]
  exact (Nat.length_toDigits_le_iff (by decide) (by decide)).mpr h

theorem isHexDigit_of_mem_upperHex {n : Nat} {c : Char} (h : c ∈ Name.upperHex n) :
    Name.isHexDigit c = true :=
  Name.isHexDigit_of_mem_toDigits h

/-- One code point is read up to where the range ends. -/
theorem take_upperHex {n : Nat} (hn : n < 16 ^ 6) {y : Text} (hy : Ends y) :
    (take (Name.upperHex n ++ y)).2 = y := by
  have hdigits := takeAtMost_append (length_upperHex hn) (fun _ => isHexDigit_of_mem_upperHex)
    (t := y) (by rintro c u rfl; exact hy.1)
  have hwild : Name.takeAtMost isWildcard (6 - (Name.upperHex n).length) ([] ++ y) = ([], y) :=
    takeAtMost_append (Nat.zero_le _) (by simp) (by rintro c u rfl; exact hy.2.1)
  rw [List.nil_append] at hwild
  unfold take
  simp only [hdigits, hwild, List.isEmpty_nil, if_true]
  -- No last code point begins behind the first one.
  match y, hy with
  | [], _ => rfl
  | [c], _ => simp
  | c :: d :: u, hy =>
    by_cases hc : c = '-'
    · subst hc
      simp [hy.2.2 rfl d u rfl]
    · simp [hc]

/-- Two code points are read up to where the range ends. -/
theorem take_upperHex_upperHex {first last : Nat} (hfirst : first < 16 ^ 6) (hlast : last < 16 ^ 6)
    {y : Text} (hy : Ends y) :
    (take (Name.upperHex first ++ ('-' :: Name.upperHex last ++ y))).2 = y := by
  have hhyphen : ∀ c u, '-' :: Name.upperHex last ++ y = c :: u → c = '-' := fun c u h =>
    (List.cons.inj h).1.symm
  have hdigits := takeAtMost_append (length_upperHex hfirst) (fun _ => isHexDigit_of_mem_upperHex)
    (t := '-' :: Name.upperHex last ++ y) fun c u h => by rw [hhyphen c u h]; rfl
  have hwild : Name.takeAtMost isWildcard (6 - (Name.upperHex first).length)
      ([] ++ ('-' :: Name.upperHex last ++ y)) = ([], '-' :: Name.upperHex last ++ y) :=
    takeAtMost_append (Nat.zero_le _) (by simp) fun c u h => by rw [hhyphen c u h]; rfl
  have hlasts := takeAtMost_append (length_upperHex hlast) (fun _ => isHexDigit_of_mem_upperHex)
    (t := y) (by rintro c u rfl; exact hy.1)
  rw [List.nil_append] at hwild
  unfold take
  simp only [hdigits, hwild, List.isEmpty_nil, if_true]
  -- The last code point is read, since a digit of it stands behind the hyphen.
  have hne : Name.upperHex last ≠ [] := by
    simp [Name.upperHex, Nat.toDigits_ne_nil]
  obtain ⟨d, ds, hds⟩ := List.exists_cons_of_ne_nil hne
  have hd : Name.isHexDigit d = true := isHexDigit_of_mem_upperHex (n := last) (by simp [hds])
  rw [hds] at hlasts ⊢
  simp only [List.cons_append] at hlasts ⊢
  simp [hd, hlasts]

/-- A range that is written is read to its end, if it does not go on. -/
theorem take_writeRange {first last : Nat} (hfirst : first < 16 ^ 6) (hlast : last < 16 ^ 6)
    {y : Text} (hy : Ends y) :
    (take (Name.upperHex first ++
      ((if last = first then [] else '-' :: Name.upperHex last) ++ y))).2 = y := by
  split
  · exact take_upperHex hfirst hy
  · exact take_upperHex_upperHex hfirst hlast hy

end UnicodeRange

namespace Lexeme

/-- A reader reads of a text up to `y`, and reads `l` of it up to `y` if reading stops behind the text. -/
structure Settles (f : Text → List Lexeme × Text) (t : Text) (l : Lexeme) (y : Text) : Prop where
  rest_eq : (f t).2 = y
  stop : (l.isWhitespace = true → y ≠ []) →
    ∀ e, Stops e → ∀ r, f (t ++ e :: r) = ([l], y ++ e :: r)

/-- Where one reader reads what another does, it settles as that one does. -/
theorem Settles.congr {f g : Text → List Lexeme × Text} {t y : Text} {l : Lexeme} (h : Settles g t l y)
    (hread : f t = g t) (hstop : ∀ e, Stops e → ∀ r, f (t ++ e :: r) = g (t ++ e :: r)) :
    Settles f t l y :=
  ⟨by rw [hread, h.rest_eq], fun hl e he r => by rw [hstop e he r, h.stop hl e he r]⟩

/-- No white space begins here, no range of code points and no arrow. -/
structure BeginsOther (c : Char) (t : Text) : Prop where
  blank : ¬Text.isCssBlank c = true
  range : ¬((c = 'u' ∨ c = 'U') ∧ UnicodeRange.starts t = true)
  arrow : Text.dropFront? ['-', '-', '>'] (c :: t) = none

section

variable {c e : Char} {t u r : Text}

theorem dropFront?_arrow_halt (he : Halts e) : Text.dropFront? ['-', '-', '>'] (c :: (t ++ e :: r)) =
    (Text.dropFront? ['-', '-', '>'] (c :: t)).map (· ++ e :: r) :=
  Text.dropFront?_stop r (by cases he <;> decide) (c :: t)

/-- What a text begins with is told by its first characters, so a text with a stop behind it begins with the
    same. -/
theorem BeginsOther.halt (h : BeginsOther c t) (he : Halts e) : BeginsOther c (t ++ e :: r) where
  blank := h.blank
  range := by
    rw [UnicodeRange.starts_stop he]
    exact h.range
  arrow := by
    rw [dropFront?_arrow_halt he, h.arrow]
    rfl

/-- White space is read to its end. -/
theorem read_of_blank (hb : Text.isCssBlank c = true) (t : Text) :
    read c t = ([.leaf (.whitespace (c :: (takeBlanks t).1))], (takeBlanks t).2) := by
  simp [read, hb]

/-- A range of code points is read before anything else that starts with its letter. -/
theorem read_of_range (hb : ¬Text.isCssBlank c = true)
    (hr : (c = 'u' ∨ c = 'U') ∧ UnicodeRange.starts t = true) :
    read c t = ([.leaf (.unicodeRange (UnicodeRange.take (t.drop 1)).1.1
      (UnicodeRange.take (t.drop 1)).1.2)], (UnicodeRange.take (t.drop 1)).2) := by
  rw [read, if_neg hb, if_pos hr]

/-- The arrow is read before a name or a number with the same hyphen. -/
theorem read_of_arrow (hb : ¬Text.isCssBlank c = true)
    (hr : ¬((c = 'u' ∨ c = 'U') ∧ UnicodeRange.starts t = true))
    (hu : Text.dropFront? ['-', '-', '>'] (c :: t) = some u) :
    read c t = ([delimiter ['-', '-', '>']], u) := by
  rw [read, if_neg hb, if_neg hr, hu]

/-- Otherwise a name comes first. -/
theorem BeginsOther.read_of_name (h : BeginsOther c t) (hs : Name.startsIdentifier (c :: t) = true) :
    read c t = readName (c :: t) := by
  rw [read, if_neg h.blank, if_neg h.range, h.arrow]
  exact if_pos hs

/-- What starts no name may start a number. -/
theorem BeginsOther.read_of_number (h : BeginsOther c t) (hs : Name.startsIdentifier (c :: t) = false)
    {n : Text} (hn : Number.take? (c :: t) = some (n, u)) : read c t = readNumber n u := by
  rw [read, if_neg h.blank, if_neg h.range, h.arrow]
  simp [hs, hn]

/-- What starts neither is a symbol. -/
theorem BeginsOther.read_of_symbol (h : BeginsOther c t) (hs : Name.startsIdentifier (c :: t) = false)
    (hn : Number.take? (c :: t) = none) : read c t = readSymbol c t := by
  rw [read, if_neg h.blank, if_neg h.range, h.arrow]
  simp [hs, hn]

end

variable {t y : Text} {l : Lexeme}

/-! ## Names

  A name, a call and a url start alike. The bracket behind the name decides, and it is part of what is
  written.
-/

/-- Without a bracket behind it, a name is a word. -/
theorem readName_ident {n r : Text} (h : Name.take t = (n, r)) (hr : ∀ u, r ≠ '(' :: u) :
    readName t = ([.leaf (.ident n)], r) := by
  unfold readName
  rw [h]
  dsimp only
  split
  · rename_i u
    exact absurd rfl (hr u)
  · rfl

/-- With a bracket behind it, it is a call. -/
theorem readName_call {n r : Text} (h : Name.take t = (n, '(' :: r))
    (hurl : ¬(Text.lower n = ['u', 'r', 'l'] ∧ UrlText.starts r = true)) :
    readName t = ([.call n], r) := by
  unfold readName
  rw [h]
  simp [hurl]

/-- The name `url`, with no quote behind the bracket, begins a URL. -/
theorem readName_url {n r : Text} (h : Name.take t = (n, '(' :: r))
    (hurl : Text.lower n = ['u', 'r', 'l'] ∧ UrlText.starts r = true) :
    readName t = (ofUrl (UrlText.take r).1, (UrlText.take r).2) := by
  unfold readName
  rw [h]
  simp [hurl]

/-- What begins with an identifier is read as a name, if it ends before what nothing but a name could go on
    with. -/
theorem read_name {c : Char} {n z : Text} (hn : ∀ d ∈ c :: n, Name.isChar d = true)
    (hs : Name.startsIdentifier (c :: n ++ z) = true) (hz : startsName z = false)
    (hhead : ∀ e ∈ z.head?, e ≠ '+' ∧ e ≠ '>') : read c (n ++ z) = readName (c :: n ++ z) := by
  have htake : Name.take (c :: n ++ z) = (c :: n, z) := by
    rw [Name.take_append_of_isChar hn, Name.take_of_not_startsName hz, List.append_nil]
  have hends : ∀ w d v, c :: (n ++ z) = w ++ d :: v → (∀ x ∈ w, Name.isChar x = true) →
      startsName (d :: v) = false → d ∈ z.head? := by
    intro w d v htext hw hd
    rw [List.cons_append, htext, Name.take_append_of_isChar hw, Name.take_of_not_startsName hd]
      at htake
    obtain rfl : d :: v = z := congrArg Prod.snd htake
    rfl
  have hblank : ¬Text.isCssBlank c = true := by
    intro hc
    simp only [Text.isCssBlank, Bool.or_eq_true, beq_iff_eq] at hc
    rcases hc with (rfl | rfl) | rfl <;> exact absurd (hn _ List.mem_cons_self) (by decide)
  -- No range and no arrow: both would need a character that is none of a name, where the name goes on.
  have hrange : UnicodeRange.starts (n ++ z) = false := by
    unfold UnicodeRange.starts
    split
    · rename_i v heq
      have hc : ∀ x ∈ [c], Name.isChar x = true := by simpa using hn c List.mem_cons_self
      exact absurd rfl (hhead '+' (hends [c] '+' _ (congrArg (c :: ·) heq) hc rfl)).1
    · rfl
  have harrow : Text.dropFront? ['-', '-', '>'] (c :: (n ++ z)) = none := by
    by_contra hsome
    obtain ⟨u, hu⟩ := Option.ne_none_iff_exists'.mp hsome
    have htext : c :: (n ++ z) = ['-', '-', '>'] ++ u := Text.dropFront?_eq_some_iff.mp hu
    exact (hhead '>' (hends ['-', '-'] '>' u htext (List.all_eq_true.mp rfl) rfl)).2 rfl
  have hother : BeginsOther c (n ++ z) := ⟨hblank, by simp [hrange], harrow⟩
  exact hother.read_of_name hs

/-- A URL that is written is read as a URL. -/
theorem readName_writeUrl (v y : Text) :
    readName ((leaf (.url v true)).write ++ y) =
      (ofUrl (UrlText.takeRest (v.flatMap Name.writeInUrl ++ ')' :: y)).1,
        (UrlText.takeRest (v.flatMap Name.writeInUrl ++ ')' :: y)).2) := by
  obtain ⟨hdrop, hstarts⟩ := UrlText.dropWhile_write v y
  have hparen : ∀ u : Text, Lexeme.startsName ('(' :: u) = false := fun u => rfl
  have htake : Name.take ('u' :: 'r' :: 'l' :: '(' :: (v.flatMap Name.writeInUrl ++ ')' :: y)) =
      (['u', 'r', 'l'], '(' :: (v.flatMap Name.writeInUrl ++ ')' :: y)) := by
    rw [Name.take_cons_of_isChar (by decide), Name.take_cons_of_isChar (by decide),
      Name.take_cons_of_isChar (by decide), Name.take_of_not_startsName (hparen _)]
  have htext : (leaf (.url v true)).write ++ y =
      'u' :: 'r' :: 'l' :: '(' :: (v.flatMap Name.writeInUrl ++ ')' :: y) := by
    simp [write, Component.write]
  rw [htext, readName_url htake ⟨by decide, hstarts⟩, UrlText.take, hdrop]

/-- **URLs settle.**  One that is read was closed, so it is written with its bracket and ends with it. -/
theorem settles_url {n u : Text} (htake : Name.take t = (n, '(' :: u))
    (hurl : Text.lower n = ['u', 'r', 'l'] ∧ UrlText.starts u = true) (h : (readName t).1 = [l])
    (hw : t = l.write ++ y) (hfault : l.isFault = false) : Settles readName t l y := by
  obtain ⟨v, rfl⟩ : ∃ v, l = .leaf (.url v true) := by
    rw [readName_url htake hurl] at h
    generalize (UrlText.take u).1 = e at h
    cases e with
    | closed v => exact ⟨v, (List.singleton_inj.mp h).symm⟩
    | unclosed v => simp [ofUrl] at h
    | broken =>
      obtain rfl := List.singleton_inj.mp h
      contradiction
  have hread : ∀ z, readName ((leaf (.url v true)).write ++ z) = ([.leaf (.url v true)], z) := by
    rcases UrlText.takeRest_write v with hv | hv
    · intro z
      rw [readName_writeUrl, hv]
      rfl
    · -- A URL that breaks would not have been read as one.
      rw [hw, readName_writeUrl, hv] at h
      simp [ofUrl] at h
  refine ⟨by rw [hw, hread], fun _ e he s => ?_⟩
  rw [hw, List.append_assoc, hread]

/-- **Calls settle**, with their bracket. -/
theorem settles_call {n u : Text} (htake : Name.take t = (n, '(' :: u))
    (hurl : ¬(Text.lower n = ['u', 'r', 'l'] ∧ UrlText.starts u = true)) (h : (readName t).1 = [l])
    (hw : t = l.write ++ y) : Settles readName t l y := by
  obtain rfl : Lexeme.call n = l := by
    rw [readName_call htake hurl] at h
    exact List.singleton_inj.mp h
  have hwrite : t = Name.writeIdentifier n ++ '(' :: y := by simpa [write] using hw
  have hn : (Name.take (Name.writeIdentifier n ++ '(' :: y)).1 = n := by rw [← hwrite, htake]
  obtain ⟨hends, hstop⟩ := Name.take_ends (Name.take_writeIdentifier n) hn
  rw [← hwrite, htake, Prod.mk.injEq, List.cons.injEq] at hends
  obtain ⟨-, -, rfl⟩ := hends
  refine ⟨by rw [readName_call htake hurl], fun _ e he s => ?_⟩
  refine readName_call (by rw [hwrite]; exact hstop e he s) fun hs => hurl ⟨hs.1, ?_⟩
  -- What begins no URL begins none with more behind it.
  by_contra hnot
  rw [UrlText.starts_append (by simpa using hnot)] at hs
  exact Bool.noConfusion hs.2

/-- **Words settle.**  They go on as far as names do, and a stop is no character of names. -/
theorem settles_ident {n u : Text} (htake : Name.take t = (n, u)) (hu : ∀ v, u ≠ '(' :: v)
    (h : (readName t).1 = [l]) (hw : t = l.write ++ y) : Settles readName t l y := by
  obtain rfl : Lexeme.leaf (.ident n) = l := by
    rw [readName_ident htake hu] at h
    exact List.singleton_inj.mp h
  have hwrite : t = Name.writeIdentifier n ++ y := hw
  have hn : (Name.take (Name.writeIdentifier n ++ y)).1 = n := by rw [← hwrite, htake]
  obtain ⟨hends, hstop⟩ := Name.take_ends (Name.take_writeIdentifier n) hn
  rw [← hwrite, htake, Prod.mk.injEq] at hends
  obtain ⟨-, rfl⟩ := hends
  refine ⟨by rw [readName_ident htake hu], fun _ e he s => ?_⟩
  refine readName_ident (by rw [hwrite]; exact hstop e he s) fun v hv => ?_
  cases u with
  | nil => cases he <;> simp at hv
  | cons c u => exact hu u (by rw [(List.cons.inj hv).1])

/-- So all three do. -/
theorem settles_readName (h : (readName t).1 = [l]) (hw : t = l.write ++ y)
    (hfault : l.isFault = false) : Settles readName t l y := by
  obtain ⟨n, u, htake⟩ : ∃ n u, Name.take t = (n, u) := ⟨_, _, rfl⟩
  by_cases hu : ∃ v, u = '(' :: v
  · obtain ⟨v, rfl⟩ := hu
    by_cases hurl : Text.lower n = ['u', 'r', 'l'] ∧ UrlText.starts v = true
    · exact settles_url htake hurl h hw hfault
    · exact settles_call htake hurl h hw
  · exact settles_ident htake (fun v hv => hu ⟨v, hv⟩) h hw

/-! ## Numbers

  A number, a percentage and a dimension start alike. What is behind the numeral decides.
-/

theorem readNumber_dimension {numeral u : Text} (hu : Name.startsIdentifier u = true) :
    readNumber numeral u = ([.leaf (.dimension numeral (Name.take u).1)], (Name.take u).2) := by
  simp [readNumber, hu]

theorem readNumber_percentage {numeral u : Text} (hu : ¬Name.startsIdentifier ('%' :: u) = true) :
    readNumber numeral ('%' :: u) = ([.leaf (.percentage numeral)], u) := by
  simp [readNumber, hu]

/-- Without a unit and a percent sign behind it, a numeral is a number. -/
theorem readNumber_number {numeral u : Text} (hu : ¬Name.startsIdentifier u = true)
    (hp : ∀ v, u ≠ '%' :: v) : readNumber numeral u = ([.leaf (.number numeral)], u) := by
  unfold readNumber
  rw [if_neg hu]
  split
  · exact absurd rfl (hp _)
  · rfl

/-- **Dimensions settle.**  The unit is written so that it cannot be read as an exponent, and ends as a name
    does. -/
theorem settles_dimension {numeral u : Text} (hs : Name.startsIdentifier u = true)
    (h : (readNumber numeral u).1 = [l]) (hw : numeral ++ u = l.write ++ y) :
    Settles (readNumber numeral) u l y := by
  rw [readNumber_dimension hs] at h
  obtain rfl := List.singleton_inj.mp h
  have hu : u = Name.writeUnit (Name.take u).1 ++ y := by
    refine (List.append_right_inj numeral).mp ?_
    simpa [write, Component.write] using hw
  obtain ⟨m, hm, hunit⟩ := Name.take_writeUnit (Name.take u).1
  -- An `e` that is escaped as a unit is read as that unit.
  have hmu : m = (Name.take u).1 := by
    rcases hm with hm | ⟨r, hE, rfl⟩
    · exact hm
    · have := congrArg Prod.fst (hunit y)
      rw [← hu, hE] at this
      simp at this
  obtain ⟨hends, hstop⟩ := Name.take_ends hunit (y := y) (by rw [← hu, hmu])
  rw [← hu] at hends hstop
  refine ⟨by rw [readNumber_dimension hs, hends], fun _ e he r => ?_⟩
  rw [readNumber_dimension (by rw [Name.startsIdentifier_stop he, hs]), hstop e he, hmu]

/-- **Numbers settle**: dimensions, percentages, and numbers with nothing behind them. -/
theorem settles_readNumber {numeral u : Text} (h : (readNumber numeral u).1 = [l])
    (hw : numeral ++ u = l.write ++ y) : Settles (readNumber numeral) u l y := by
  by_cases hs : Name.startsIdentifier u = true
  · exact settles_dimension hs h hw
  have hs' : ∀ e, Stops e → ∀ r, ¬Name.startsIdentifier (u ++ e :: r) = true := fun e he r => by
    rwa [Name.startsIdentifier_stop he]
  by_cases hp : ∃ v, u = '%' :: v
  · obtain ⟨v, rfl⟩ := hp
    rw [readNumber_percentage hs] at h
    obtain rfl := List.singleton_inj.mp h
    obtain rfl : v = y := by simpa [write, Component.write] using hw
    refine ⟨by rw [readNumber_percentage hs], fun _ e he r => ?_⟩
    exact readNumber_percentage (hs' e he r)
  · have hp : ∀ w, u ≠ '%' :: w := fun w hu => hp ⟨w, hu⟩
    rw [readNumber_number hs hp] at h
    obtain rfl := List.singleton_inj.mp h
    obtain rfl : u = y := by simpa [write, Component.write] using hw
    refine ⟨by rw [readNumber_number hs hp], fun _ e he r => ?_⟩
    refine readNumber_number (hs' e he r) fun w hw => ?_
    cases u with
    | nil => cases he <;> simp at hw
    | cons c u => exact hp u (by rw [(List.cons.inj hw).1])

/-! ## Symbols

  A symbol is decided by its first character, and by the second one for a comment, a hash or an at sign.
-/

/-- **At-keywords settle**, and so does an at-sign that no name follows. -/
theorem settles_readAt (h : (readAt t).1 = [l]) (hw : '@' :: t = l.write ++ y) :
    Settles readAt t l y := by
  by_cases hs : Name.startsIdentifier t = true
  · have hread : ∀ u, Name.startsIdentifier u = true →
        readAt u = ([.leaf (.atKeyword (Name.take u).1)], (Name.take u).2) :=
      fun u hu => by simp [readAt, hu]
    rw [hread t hs] at h
    obtain rfl := List.singleton_inj.mp h
    have ht : t = Name.writeIdentifier (Name.take t).1 ++ y := (List.cons.inj hw).2
    obtain ⟨hends, hstop⟩ := Name.take_ends (Name.take_writeIdentifier (Name.take t).1) (y := y)
      (by rw [← ht])
    rw [← ht] at hends hstop
    refine ⟨by rw [hread t hs, hends], fun _ e he r => ?_⟩
    rw [hread _ (by rw [Name.startsIdentifier_stop he, hs]), hstop e he]
  · have hread : ∀ u, ¬Name.startsIdentifier u = true → readAt u = ([delimiter ['@']], u) :=
      fun u hu => by simp [readAt, hu]
    rw [hread t hs] at h
    obtain rfl := List.singleton_inj.mp h
    obtain rfl : t = y := (List.cons.inj hw).2
    refine ⟨by rw [hread t hs], fun _ e he r => ?_⟩
    exact hread _ (by rwa [Name.startsIdentifier_stop he])

/-- **Hash signs settle**, whether the name behind them could stand alone or not; and so does one that no name
    follows. -/
theorem settles_readHash (h : (readHash t).1 = [l]) (hw : '#' :: t = l.write ++ y) :
    Settles readHash t l y := by
  -- A hash with a name settles where the name ends; one without is a delimiter of one character.
  by_cases hs : startsName t = true
  · have hread : ∀ u, startsName u = true → readHash u =
        ([.leaf (.hash (Name.take u).1 (Name.startsIdentifier u))], (Name.take u).2) :=
      fun u hu => by simp [readHash, hu]
    rw [hread t hs] at h
    obtain rfl := List.singleton_inj.mp h
    obtain ⟨w, htw, hname⟩ : ∃ w, t = w ++ y ∧
        ∀ u, Name.take (w ++ u) = ((Name.take t).1 ++ (Name.take u).1, (Name.take u).2) := by
      have ht := (List.cons.inj hw).2
      cases hid : Name.startsIdentifier t with
      | true => exact ⟨_, by simpa [hid] using ht, Name.take_writeIdentifier _⟩
      | false => exact ⟨_, by simpa [hid] using ht, Name.take_write _⟩
    obtain ⟨hends, hstop⟩ := Name.take_ends hname (y := y) (by rw [← htw])
    rw [← htw] at hends hstop
    refine ⟨by rw [hread t hs, hends], fun _ e he r => ?_⟩
    rw [hread _ (by rw [startsName_stop he, hs]), hstop e he, Name.startsIdentifier_stop he]
  · have hread : ∀ u, ¬startsName u = true → readHash u = ([delimiter ['#']], u) :=
      fun u hu => by simp [readHash, hu]
    rw [hread t hs] at h
    obtain rfl := List.singleton_inj.mp h
    obtain rfl : t = y := (List.cons.inj hw).2
    refine ⟨by rw [hread t hs], fun _ e he r => ?_⟩
    exact hread _ (by rwa [startsName_stop he])

/-- A delimiter is all that is read of the text. -/
theorem readDelimiter_append (c : Char) (t : Text) :
    ∃ text, (readDelimiter c t).1 = [delimiter text] ∧ text ++ (readDelimiter c t).2 = c :: t := by
  unfold readDelimiter
  split
  · split
    · rename_i h
      exact ⟨_, rfl, h ▸ rfl⟩
    · exact ⟨_, rfl, rfl⟩
  · split
    · rename_i h
      exact ⟨_, rfl, h ▸ rfl⟩
    · exact ⟨_, rfl, rfl⟩
  · split <;> exact ⟨_, rfl, rfl⟩
  · exact ⟨_, rfl, rfl⟩

/-- **Delimiters settle**: one that is written is read with as many characters. -/
theorem settles_readDelimiter {c : Char} (h : (readDelimiter c t).1 = [l])
    (hw : c :: t = l.write ++ y) : Settles (readDelimiter c) t l y := by
  obtain ⟨text, htext, happend⟩ := readDelimiter_append c t
  obtain rfl := List.singleton_inj.mp (htext.symm.trans h)
  have hrest : (readDelimiter c t).2 = y := by
    refine (List.append_right_inj text).mp ?_
    exact happend.trans hw
  refine ⟨hrest, fun _ e he r => ?_⟩
  rw [readDelimiter_stop he.halts, h, hrest]

/-- **Strings settle.**  One that is read without a fault has been closed, and ends with its quote. -/
theorem settles_readString {c : Char} (h : ofString (Quotation.take c t).1 = [l])
    (hw : c :: t = l.write ++ y) (hfault : l.isFault = false) :
    Settles (fun t => (ofString (Quotation.take c t).1, (Quotation.take c t).2)) t l y := by
  obtain ⟨v, rfl⟩ : ∃ v, l = .leaf (.string v true) := by
    generalize (Quotation.take c t).1 = e at h
    cases e with
    | closed v => exact ⟨v, (List.singleton_inj.mp h).symm⟩
    | unclosed v => simp [ofString] at h
    | broken =>
      obtain rfl := List.singleton_inj.mp h
      contradiction
  obtain ⟨rfl, ht⟩ : c = '"' ∧ t = v.flatMap Name.writeInString ++ '"' :: y := by
    simpa [write, Component.write] using hw
  subst ht
  refine ⟨by rw [Quotation.take_write], fun _ e he r => ?_⟩
  simp only [List.append_assoc, List.cons_append, Quotation.take_write]
  rfl

/-- A bracket is read for itself, whatever follows. -/
theorem settles_bracket {c : Char} {k : Lexeme} (hread : ∀ u, readSymbol c u = ([k], u))
    (hk : k.write = [c]) (h : (readSymbol c t).1 = [l]) (hw : c :: t = l.write ++ y) :
    Settles (readSymbol c) t l y := by
  rw [hread] at h
  obtain rfl := List.singleton_inj.mp h
  rw [hk] at hw
  obtain rfl : t = y := (List.cons.inj hw).2
  exact ⟨by rw [hread], fun _ e he r => hread _⟩

/-- A slash that begins no comment is a delimiter. -/
theorem settles_slash (h : (readSymbol '/' t).1 = [l]) (hw : '/' :: t = l.write ++ y)
    (hcomment : l.isComment = false) : Settles (readSymbol '/') t l y := by
  have hread : ∀ u, (∀ v, u ≠ '*' :: v) → readSymbol '/' u = readDelimiter '/' u := by
    intro u hu
    simp only [readSymbol]
  have hstar : ∀ u, t ≠ '*' :: u := by
    rintro u rfl
    obtain rfl := List.singleton_inj.mp h
    contradiction
  rw [hread t hstar] at h
  refine (settles_readDelimiter h hw).congr (hread t hstar) fun e he r => hread _ fun u hu => ?_
  cases t with
  | nil => cases he <;> simp at hu
  | cons d t => exact hstar t (by rw [(List.cons.inj hu).1])

/-- **What begins with a symbol settles.**  The cases are those of the reader: at-signs, hash signs, the two
    kinds of quotes, slashes, brackets that open and close, and last the delimiters. -/
theorem settles_readSymbol {c : Char} (h : (readSymbol c t).1 = [l]) (hw : c :: t = l.write ++ y)
    (hfault : l.isFault = false) (hcomment : l.isComment = false) :
    Settles (readSymbol c) t l y := by
  by_cases hat : c = '@'
  · subst hat
    exact settles_readAt h hw
  by_cases hhash : c = '#'
  · subst hhash
    exact settles_readHash h hw
  by_cases hquote : c = '"'
  · subst hquote
    exact settles_readString h hw hfault
  by_cases hquote' : c = '\''
  · subst hquote'
    exact settles_readString h hw hfault
  by_cases hslash : c = '/'
  · subst hslash
    exact settles_slash h hw hcomment
  by_cases hopening : ∃ b : Bracket, c = b.opening
  · obtain ⟨b, rfl⟩ := hopening
    exact settles_bracket (k := .opened b) (fun _ => by cases b <;> rfl) rfl h hw
  by_cases hclosing : ∃ b : Bracket, c = b.closing
  · obtain ⟨b, rfl⟩ := hclosing
    exact settles_bracket (k := .closed b) (fun _ => by cases b <;> rfl) rfl h hw
  -- All other characters begin a delimiter.
  have hread : readSymbol c = readDelimiter c := by
    funext u
    have hopening : ∀ b : Bracket, c ≠ b.opening := fun b hb => hopening ⟨b, hb⟩
    have hclosing : ∀ b : Bracket, c ≠ b.closing := fun b hb => hclosing ⟨b, hb⟩
    have hbrackets := And.intro (hopening .brace) (And.intro (hopening .square) (hopening .round))
    have hbrackets' := And.intro (hclosing .brace) (And.intro (hclosing .square) (hclosing .round))
    simp only [Bracket.opening, Bracket.closing] at hbrackets hbrackets'
    unfold readSymbol
    split <;> first | rfl | simp_all
  rw [hread] at h ⊢
  exact settles_readDelimiter h hw

/-! ## Any lexeme

  White space, ranges and arrows come first in the order of the tests; the rest is one of the three kinds
  above.
-/

theorem takeBlanks_fst_append (t : Text) : (takeBlanks t).1 ++ (takeBlanks t).2 = t := by
  induction t with
  | nil => rfl
  | cons c t ih => cases hc : Text.isCssBlank c <;> simp [takeBlanks, hc, ih]

/-- **White space settles** if a stop that is no blank follows: it is written as it was read. -/
theorem settles_blanks {c : Char} (hblank : Text.isCssBlank c = true) (h : (read c t).1 = [l])
    (hw : c :: t = l.write ++ y) : Settles (read c) t l y := by
  have hread := read_of_blank hblank
  rw [hread] at h
  obtain rfl := List.singleton_inj.mp h
  have hrest : (takeBlanks t).2 = y := by
    refine (List.append_right_inj (takeBlanks t).1).mp ?_
    exact (takeBlanks_fst_append t).trans (List.cons.inj hw).2
  refine ⟨by rw [hread, hrest], fun hy e he r => ?_⟩
  rw [hread, takeBlanks_append (by rw [hrest]; exact hy rfl), hrest]

/-- **Ranges of code points settle**, if their digits do not go on behind them: six digits are read at most,
    so a seventh would be left to the next lexeme. -/
theorem settles_range {c : Char} (hblank : ¬Text.isCssBlank c = true)
    (hu : (c = 'u' ∨ c = 'U') ∧ UnicodeRange.starts t = true) (h : (read c t).1 = [l])
    (hw : c :: t = l.write ++ y)
    (hrange : ∀ first last, l = .leaf (.unicodeRange first last) → UnicodeRange.Ends y) :
    Settles (read c) t l y := by
  have hread : ∀ u, UnicodeRange.starts u = true → _ := fun u hs =>
    read_of_range (t := u) hblank ⟨hu.1, hs⟩
  rw [hread t hu.2] at h
  obtain rfl := List.singleton_inj.mp h
  obtain ⟨hfirst, hlast⟩ := UnicodeRange.take_lt (t.drop 1)
  generalize hrange' : UnicodeRange.take (t.drop 1) = range at *
  obtain ⟨⟨first, last⟩, rest⟩ := range
  -- What is written begins behind the letter and the plus sign.
  have ht : t.drop 1 = Name.upperHex first ++
      ((if last = first then [] else '-' :: Name.upperHex last) ++ y) := by
    have := (List.cons.inj hw).2
    rw [this]
    show (['+'] ++ Name.upperHex first ++ _ ++ y).drop 1 = _
    simp
  -- Two code points that are the same are written as one.
  have hrest : rest = y := by
    have := UnicodeRange.take_writeRange hfirst hlast (hrange first last rfl)
    rw [← ht, hrange'] at this
    exact this
  subst hrest
  refine ⟨by rw [hread t hu.2, hrange'], fun _ e he r => ?_⟩
  have hdrop : (t ++ e :: r).drop 1 = t.drop 1 ++ e :: r := by
    cases t with
    | nil => simp [UnicodeRange.starts] at hu
    | cons d t => rfl
  rw [hread _ (by rw [UnicodeRange.starts_stop he.halts, hu.2]), hdrop, UnicodeRange.take_stop he.halts,
    hrange']

/-- **Arrows settle**: they are read before everything that begins with a hyphen. -/
theorem settles_arrow {c : Char} {u : Text} (hblank : ¬Text.isCssBlank c = true)
    (hrange : ¬((c = 'u' ∨ c = 'U') ∧ UnicodeRange.starts t = true))
    (hu : Text.dropFront? ['-', '-', '>'] (c :: t) = some u) (h : (read c t).1 = [l])
    (hw : c :: t = l.write ++ y) : Settles (read c) t l y := by
  rw [read_of_arrow hblank hrange hu] at h
  obtain rfl := List.singleton_inj.mp h
  have hrest : u = y := by
    refine (List.append_right_inj ['-', '-', '>']).mp ?_
    exact (Text.dropFront?_eq_some_iff.mp hu).symm.trans hw
  subst hrest
  refine ⟨by rw [read_of_arrow hblank hrange hu], fun _ e he r => ?_⟩
  refine read_of_arrow hblank ?_ (by rw [dropFront?_arrow_halt he.halts, hu]; rfl)
  rwa [UnicodeRange.starts_stop he.halts]

/-- **What is told by its first characters settles**: names, numbers and symbols, in the order in which the
    reader tries them. -/
theorem BeginsOther.settles {c : Char} (ho : BeginsOther c t) (h : (read c t).1 = [l])
    (hw : c :: t = l.write ++ y) (hfault : l.isFault = false) (hcomment : l.isComment = false) :
    Settles (read c) t l y := by
  -- The stop does not change which of the three it is.
  have hident : ∀ e, Stops e → ∀ r, Name.startsIdentifier (c :: (t ++ e :: r)) =
      Name.startsIdentifier (c :: t) := fun e he r => Name.startsIdentifier_stop he r (c :: t)
  have hnumber : ∀ e, Stops e → ∀ r, Number.take? (c :: (t ++ e :: r)) =
      (Number.take? (c :: t)).map fun n => (n.1, n.2 ++ e :: r) := fun e he r =>
    Number.take?_stop he.halts r (c :: t)
  cases hs : Name.startsIdentifier (c :: t) with
  | true =>
    rw [ho.read_of_name hs] at h
    obtain ⟨hrest, hstop⟩ := settles_readName h hw hfault
    refine ⟨by rw [ho.read_of_name hs, hrest], fun hl e he r => ?_⟩
    rw [(ho.halt he.halts).read_of_name (by rw [hident e he, hs])]
    exact hstop hl e he r
  | false =>
    cases hn : Number.take? (c :: t) with
    | some nu =>
      obtain ⟨numeral, u⟩ := nu
      rw [ho.read_of_number hs hn] at h
      obtain ⟨hrest, hstop⟩ := settles_readNumber h ((Number.take?_append hn).1.trans hw)
      refine ⟨by rw [ho.read_of_number hs hn, hrest], fun hl e he r => ?_⟩
      rw [(ho.halt he.halts).read_of_number (by rw [hident e he, hs]) (by rw [hnumber e he, hn]; rfl)]
      exact hstop hl e he r
    | none =>
      rw [ho.read_of_symbol hs hn] at h
      refine (settles_readSymbol h hw hfault hcomment).congr (ho.read_of_symbol hs hn) fun e he r => ?_
      exact (ho.halt he.halts).read_of_symbol (by rw [hident e he, hs]) (by rw [hnumber e he, hn]; rfl)

/-- **A lexeme that is written where it is read is read to its end**, and where reading stops behind the
    text as well. -/
theorem settles_read {c : Char} (h : (read c t).1 = [l]) (hw : c :: t = l.write ++ y)
    (hfault : l.isFault = false) (hcomment : l.isComment = false)
    (hrange : ∀ first last, l = .leaf (.unicodeRange first last) → UnicodeRange.Ends y) :
    Settles (read c) t l y := by
  by_cases hblank : Text.isCssBlank c = true
  · exact settles_blanks hblank h hw
  by_cases hu : (c = 'u' ∨ c = 'U') ∧ UnicodeRange.starts t = true
  · exact settles_range hblank hu h hw hrange
  cases harrow : Text.dropFront? ['-', '-', '>'] (c :: t) with
  | some u => exact settles_arrow hblank hu harrow h hw
  | none => exact BeginsOther.settles ⟨hblank, hu, harrow⟩ h hw hfault hcomment

end Lexeme

end CssShorthand
