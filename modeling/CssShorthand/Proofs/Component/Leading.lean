/-
  WHAT A TEXT BEGINS WITH.

  A component that holds no others is written, and something follows that it does not go on with: then the
  text begins with this component, and what follows is scanned for itself.  There is one lemma for each kind of
  component that the parts of a border are made of; each says what must not follow.

  Where `Reread` shows that a text which was read once is read again, this module builds the reading from
  nothing: the text is given by its characters. Each kind of lexeme has its own conditions on what follows,
  which for the parts of a border are a blank, a bracket, a comma or the end.
-/
import CssShorthand.Proofs.Component.Joined
import CssShorthand.Proofs.Component.Numeral
import CssShorthand.Proofs.Component.Rescan

namespace CssShorthand

open List

variable {c : Char} {d n r t u x z : Text}

namespace Number

/-- A number does not go on with what begins so. -/
theorem ended_cons (hdigit : c.isDigit = false) (hpoint : c ≠ '.') (he : c ≠ 'e') (hE : c ≠ 'E') (t : Text) :
    Ended (c :: t) where
  digit := by simpa using hdigit
  point := by simpa using hpoint
  exponent := by simp [takeExponent, he, hE]

/-- An `e` goes on with a number only before a digit or a sign. -/
theorem ended_exponent {e : Char} (he : e = 'e' ∨ e = 'E') (hdigit : c.isDigit = false) (hplus : c ≠ '+')
    (hminus : c ≠ '-') (t : Text) : Ended (e :: c :: t) := by
  have hsign : takeSign (c :: t) = ([], c :: t) := takeSign_again (t := []) (by simp [hplus, hminus])
  have hdigits : takeDigits (c :: t) = ([], c :: t) := by simp [takeDigits, hdigit]
  have hexponent : takeExponent (e :: c :: t) = ([], e :: c :: t) := by simp [takeExponent, hsign, hdigits]
  rcases he with rfl | rfl <;> exact ⟨by simp, by simp, hexponent⟩

/-- The text is a sign, or nothing. -/
def IsSign (t : Text) : Prop := t = [] ∨ t = ['+'] ∨ t = ['-']

/-- A sign is read before what is no sign. -/
theorem IsSign.takeSign_append (h : IsSign t) (hu : ∀ c ∈ u.head?, c ≠ '+' ∧ c ≠ '-') :
    takeSign (t ++ u) = (t, u) := by
  rcases h with rfl | rfl | rfl
  · exact takeSign_again (t := []) hu
  · rfl
  · rfl

/-- **Digits are a number**, with a sign before them, and with a point and more digits behind them. -/
theorem take?_digits (hsign : IsSign t) (hd : ∀ c ∈ d, c.isDigit = true)
    (hx : (x = [] ∧ d ≠ []) ∨ ∃ f, x = '.' :: f ∧ f ≠ [] ∧ ∀ c ∈ f, c.isDigit = true) :
    take? (t ++ d ++ x) = some (t ++ d ++ x, []) := by
  have hdecimal : takeDecimal? (d ++ x) = some (d ++ x, []) := by
    rcases hx with ⟨rfl, hne⟩ | ⟨f, rfl, hne, hf⟩
    · have hdigits : takeDigits (d ++ []) = (d, []) := takeDigits_eq hd nofun
      rw [takeDecimal?, hdigits, append_nil]
      simp [hne]
    · have hwhole := takeDigits_eq (u := '.' :: f) hd (by simp)
      have hfraction := takeDigits_eq (u := []) hf nofun
      rw [append_nil] at hfraction
      simp [takeDecimal?, hwhole, hfraction, hne]
  obtain ⟨c, y, hcy, hc⟩ := exists_head_of_takeDecimal? hdecimal
  have htake : takeSign (t ++ (d ++ x)) = (t, d ++ x) := hsign.takeSign_append fun e he => by
    rw [hcy] at he
    exact not_isSign (Option.some.inj he ▸ hc)
  rw [append_assoc, take?, htake]
  simp [hdecimal, takeExponent]

/-- A point goes on with digits only if one stands behind it. -/
theorem take?_point (hsign : IsSign t) (hd : ∀ c ∈ d, c.isDigit = true) (hne : d ≠ [])
    (hz : ∀ c ∈ z.head?, c.isDigit = false) : take? (t ++ d ++ '.' :: z) = some (t ++ d, '.' :: z) := by
  have hdecimal : takeDecimal? (d ++ '.' :: z) = some (d, '.' :: z) := by
    have hwhole := takeDigits_eq (u := '.' :: z) hd (by simp)
    have hfraction := takeDigits_eq (d := []) nofun hz
    rw [nil_append] at hfraction
    simp [takeDecimal?, hwhole, hfraction, hne]
  obtain ⟨c, y, hcy, hc⟩ := exists_head_of_takeDecimal? hdecimal
  have htake : takeSign (t ++ (d ++ '.' :: z)) = (t, d ++ '.' :: z) := hsign.takeSign_append fun e he => by
    rw [hcy, cons_append] at he
    exact not_isSign (Option.some.inj he ▸ hc)
  rw [append_assoc, take?, htake]
  simp [hdecimal, takeExponent]

/-- Without digits there is no number. -/
theorem take?_eq_none (hsign : IsSign t) (hz : ∀ c ∈ z.head?, c.isDigit = false ∧ c ≠ '+' ∧ c ≠ '-')
    (hpoint : ∀ u, z = '.' :: u → ∀ c ∈ u.head?, c.isDigit = false) : take? (t ++ z) = none := by
  have hdecimal : takeDecimal? z = none := by
    have hwhole := takeDigits_eq (d := []) nofun fun c hc => (hz c hc).1
    rw [nil_append] at hwhole
    unfold takeDecimal?
    rw [hwhole]
    dsimp only
    split
    · rename_i u
      have hfraction := takeDigits_eq (d := []) nofun (hpoint u rfl)
      rw [nil_append] at hfraction
      simp [hfraction]
    · rfl
  rw [take?, hsign.takeSign_append fun c hc => (hz c hc).2]
  simp [hdecimal]

end Number

namespace Lexeme

/-! ## Numerals

  A sign, digits with a point, and an exponent; what follows must not go on with any of them.
-/

/-- A numeral is read up to where it ends. -/
theorem lexemes_numeral (hn : Number.take? (n ++ z) = some (n, z)) :
    lexemes (n ++ z) = (readNumber n z).1.filter (fun l => !l.isComment) ++ lexemes (readNumber n z).2 := by
  obtain ⟨c, y, rfl⟩ := exists_cons_of_ne_nil (Number.take?_append hn).2
  have hread : read c (y ++ z) = readNumber (c :: y) z := read_of_take? hn
  rw [cons_append, lexemes_cons, hread]

/-- A number ends before what is no percent sign and no unit. -/
theorem lexemes_number (hn : Number.take? (n ++ z) = some (n, z)) (hunit : Name.startsIdentifier z = false)
    (hpercent : z.head? ≠ some '%') : lexemes (n ++ z) = .leaf (.number n) :: lexemes z := by
  have hread : readNumber n z = ([.leaf (.number n)], z) := by
    unfold readNumber
    rw [if_neg (by simp [hunit])]
    split
    · exact absurd rfl hpercent
    · rfl
  rw [lexemes_numeral hn, hread]
  rfl

/-- A percentage ends with its sign. -/
theorem lexemes_percentage (hn : Number.take? t = some (n, r)) (z : Text) :
    lexemes (n ++ '%' :: z) = .leaf (.percentage n) :: lexemes z := by
  have hended := Number.ended_cons (c := '%') rfl (by decide) (by decide) (by decide) z
  rw [lexemes_numeral (Number.take?_again hn hended)]
  rfl

/-- A dimension ends with its unit. -/
theorem lexemes_dimension (hn : Number.take? t = some (n, r)) (hu : ∀ c ∈ u, Name.isChar c = true)
    (hstarts : Name.startsIdentifier (u ++ z) = true) (hended : Number.Ended (u ++ z))
    (hz : startsName z = false) : lexemes (n ++ (u ++ z)) = .leaf (.dimension n u) :: lexemes z := by
  have htake : Name.take (u ++ z) = (u, z) := by
    rw [Name.take_append_of_isChar hu, Name.take_of_not_startsName hz, append_nil]
  have hread : readNumber n (u ++ z) = ([.leaf (.dimension n u)], z) := by
    unfold readNumber
    rw [if_pos hstarts, htake]
  rw [lexemes_numeral (Number.take?_again hn hended), hread]
  rfl

/-! ## Names

  A name ends where the next character belongs to none.
-/

/-- **A name ends** before what neither goes on with it nor makes it a function or a range. -/
theorem lexemes_ident (hn : ∀ d ∈ c :: n, Name.isChar d = true)
    (hstarts : Name.startsIdentifier (c :: n ++ z) = true) (hz : startsName z = false)
    (hhead : ∀ e ∈ z.head?, e ≠ '(' ∧ e ≠ '+' ∧ e ≠ '>') :
    lexemes (c :: n ++ z) = .leaf (.ident (c :: n)) :: lexemes z := by
  have htake : Name.take (c :: n ++ z) = (c :: n, z) := by
    rw [Name.take_append_of_isChar hn, Name.take_of_not_startsName hz, append_nil]
  have hident : readName (c :: n ++ z) = ([.leaf (.ident (c :: n))], z) :=
    readName_ident htake fun u hu => (hhead '(' (by simp [hu])).1 rfl
  rw [cons_append, lexemes_cons, read_name hn hstarts hz fun e he => (hhead e he).2, hident]
  rfl

/-- A hash ends where its name does. -/
theorem lexemes_hash (hn : ∀ d ∈ c :: n, Name.isChar d = true) (hz : startsName z = false) :
    lexemes ('#' :: (c :: n ++ z)) =
      .leaf (.hash (c :: n) (Name.startsIdentifier (c :: n ++ z))) :: lexemes z := by
  have htake : Name.take (c :: n ++ z) = (c :: n, z) := by
    rw [Name.take_append_of_isChar hn, Name.take_of_not_startsName hz, append_nil]
  have hread : read '#' (c :: n ++ z) = readHash (c :: n ++ z) := rfl
  have hstarts : startsName (c :: n ++ z) = true := by simp [startsName, hn c mem_cons_self]
  rw [lexemes_cons, hread, readHash, if_pos hstarts, htake]
  rfl

/-! ## Symbols and white space

  A delimiter is a character that starts nothing else; a comment between two of them is skipped.
-/

/-- A character that begins nothing else is a delimiter for itself. -/
theorem lexemes_delimiter (hc : c = ',' ∨ c = '.' ∨ c = '+' ∨ c = '-')
    (hnumber : Number.take? (c :: z) = none) (hstarts : Name.startsIdentifier (c :: z) = false) :
    lexemes (c :: z) = .leaf (.literal [c]) :: lexemes z := by
  have harrow : Text.dropFront? ['-', '-', '>'] (c :: z) = none := by
    by_contra hsome
    obtain ⟨r, hr⟩ := Option.ne_none_iff_exists'.mp hsome
    rw [Text.dropFront?_eq_some_iff.mp hr] at hstarts
    contradiction
  have hdelimiter : readDelimiter c z = ([.leaf (.literal [c])], z) := by
    rcases hc with rfl | rfl | rfl | rfl <;> exact readDelimiter_of_not_joins (by decide) rfl z
  have hread : read c z = readDelimiter c z := by
    unfold read
    rw [harrow]
    simp only [hstarts, hnumber]
    rcases hc with rfl | rfl | rfl | rfl <;> rfl
  rw [lexemes_cons, hread, hdelimiter]
  rfl

/-- A comma is read for itself, whatever follows. -/
theorem lexemes_comma (z : Text) : lexemes (',' :: z) = .leaf (.literal [',']) :: lexemes z :=
  lexemes_delimiter (Or.inl rfl) rfl rfl

/-- So is a closing bracket. -/
theorem lexemes_close (z : Text) : lexemes (')' :: z) = .closed .round :: lexemes z := by
  rw [lexemes_cons]
  rfl

/-- A comment is no lexeme. -/
theorem lexemes_comment (z : Text) : lexemes ('/' :: '*' :: z) = lexemes (CommentText.take z).2 := by
  rw [lexemes_cons]
  rfl

/-- White space ends before what is none. -/
theorem takeBlanks_eq (hw : ∀ d ∈ n, Text.isCssBlank d = true) (hz : ∀ e ∈ z.head?, Text.isCssBlank e = false) :
    takeBlanks (n ++ z) = (n, z) := by
  induction n with
  | nil =>
    cases z with
    | nil => rfl
    | cons e z => simp [takeBlanks, hz e rfl]
  | cons c n ih =>
    obtain ⟨hc, hn⟩ := forall_mem_cons.mp hw
    simp [takeBlanks, hc, ih hn]

/-- What is left of a text behind white space begins with none. -/
theorem isCssBlank_of_mem_head? (t : Text) : ∀ e ∈ (takeBlanks t).2.head?, Text.isCssBlank e = false := by
  fun_induction takeBlanks t with
  | case1 => simp
  | case2 c t hc more ih => exact ih
  | case3 c t hc => simpa using hc

/-- White space is one component, up to where it ends. -/
theorem lexemes_whitespace (hw : ∀ d ∈ c :: n, Text.isCssBlank d = true)
    (hz : ∀ e ∈ z.head?, Text.isCssBlank e = false) :
    lexemes (c :: n ++ z) = .leaf (.whitespace (c :: n)) :: lexemes z := by
  have htake := takeBlanks_eq (forall_mem_cons.mp hw).2 hz
  have hread : read c (n ++ z) = ([.leaf (.whitespace (c :: n))], z) := by
    simp [read, hw c mem_cons_self, htake]
  rw [cons_append, lexemes_cons, hread]
  rfl

end Lexeme

/-! ## Components that hold no others

  Leaves nest to themselves, so they are parsed as they are scanned.
-/

namespace Component

variable {cs ds : List Component} {a : Component}

/-- The numeral of a component that has one. -/
def numeral? : Component → Option Text
  | .number n | .percentage n | .dimension n _ => some n
  | _ => none

/-- A numeral among the lexemes of a text was read as a number. -/
theorem exists_take?_of_mem_lexemes (ha : .leaf a ∈ Lexeme.lexemes t) (hn : a.numeral? = some n) :
    ∃ w r, Number.take? w = some (n, r) := by
  obtain ⟨c, u, ls, r, hreading, hmem⟩ := Lexeme.exists_reading_of_mem_lexemes _ ha
  -- A number is only read where the reading of a number succeeds.
  cases hreading with
  | dimension h =>
    obtain rfl := Lexeme.leaf.inj (mem_singleton.mp hmem)
    obtain rfl := Option.some.inj hn
    exact ⟨_, _, h⟩
  | percentage h =>
    obtain rfl := Lexeme.leaf.inj (mem_singleton.mp hmem)
    obtain rfl := Option.some.inj hn
    exact ⟨_, _, h⟩
  | number h =>
    obtain rfl := Lexeme.leaf.inj (mem_singleton.mp hmem)
    obtain rfl := Option.some.inj hn
    exact ⟨_, _, h⟩
  | url hr =>
    rcases Lexeme.mem_ofUrl hmem with ⟨v, isClosed, h⟩ | ⟨f, h⟩ <;>
      obtain rfl := Lexeme.leaf.inj h <;> contradiction
  | string hq =>
    rcases Lexeme.mem_ofString hmem with ⟨v, isClosed, h⟩ | ⟨f, h⟩ <;>
      obtain rfl := Lexeme.leaf.inj h <;> contradiction
  | symbol hb hs hnone =>
    obtain ⟨text, htext, -⟩ := Lexeme.readDelimiter_eq c u
    rw [htext] at hmem
    obtain rfl := Lexeme.leaf.inj (mem_singleton.mp hmem)
    contradiction
  | call h hr => simp at hmem
  | opened b h => simp at hmem
  | closed b h => simp at hmem
  | _ =>
    obtain rfl := Lexeme.leaf.inj (mem_singleton.mp hmem)
    contradiction

/-- A text that is scanned as components that hold no others is parsed as these. -/
theorem parse_of_leaves (hnormal : Lexeme.Normal t) (hleaf : ∀ c ∈ cs, IsLeaf c)
    (h : Lexeme.lexemes t = cs.map .leaf) : parse t = cs := by
  unfold parse parseFound
  rw [Lexeme.normalize_of_normal hnormal]
  exact Nesting.ofLexemes_flat (h.trans (flatList_of_isLeaf hleaf).symm)

/-- What is written of components next to others. -/
theorem writeList_append (cs : List Component) (b : Component) (ds : List Component) :
    writeList (cs ++ b :: ds) = writeList cs ++ (cs.getLast?.elim [] (between · b) ++ writeList (b :: ds)) := by
  induction cs with
  | nil => rfl
  | cons a cs ih =>
    cases cs with
    | nil => simp [writeList]
    | cons a' cs =>
      rw [cons_append] at ih
      rw [cons_append, cons_append, writeList, ih, writeList, getLast?_cons_cons]
      simp only [append_assoc]

end Component

end CssShorthand
