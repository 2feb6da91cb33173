/-
  VALUES GIVEN TO A STORE.

  A value is given as a text, or as another simple value that stands for its text, or as a declaration,
  which is taken as it is.
-/
import CssShorthand.Decimal.Shortest
import CssShorthand.Declaration.Cleaning

namespace CssShorthand

/-- A value for a property. -/
inductive Value where
  | text (t : Text)
  | integer (n : Int)
  | real (x : Float)
  | truth (b : Bool)
  | nothing
  | declaration (d : Declaration)

namespace Value

/-- The text that a value stands for. -/
def toText : Value → Text
  | .text t => t
  | .integer n => (toString n).toList
  | .real x => Shortest.text x
  | .truth true => "True".toList
  | .truth false => "False".toList
  | .nothing => "None".toList
  | .declaration d => d.text

/-- The declaration that a text makes, important if the text or the caller says so; none for a text
    that is blank once it is cleaned. -/
def declarationOfText? (t : Text) (important : Bool) : Option Declaration :=
  let cleaned := Cleaning.clean t
  if cleaned.1.isEmpty then none else some ⟨cleaned.1, important || cleaned.2⟩

/-- The declaration that a value makes, if it makes one. -/
def declaration? (v : Value) (important : Bool) : Option Declaration :=
  match v with
  | .declaration d => some d
  | v => declarationOfText? v.toText important

/-- Whether there is no value. -/
def isNothing : Value → Bool
  | .nothing => true
  | _ => false

end Value

end CssShorthand
