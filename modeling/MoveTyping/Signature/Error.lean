/-!
# Errors of type texts

Why the text of a type, a type parameter or an ability list is refused.
-/

namespace MoveTyping

inductive SignatureError where
  | unexpectedEnd (text : String)
  /-- `found` starts at byte `offset` of `text` and does not fit there. -/
  | unexpectedChar (text : String) (offset : Nat) (found : Char)
  | unknownType (text name : String)
  | unknownAbility (ability : String)
deriving DecidableEq, Repr

def SignatureError.message : SignatureError → String
  | unexpectedEnd text => "unexpected end of type `" ++ text ++ "`"
  | unexpectedChar text offset found =>
    "unexpected `" ++ found.toString ++ "` at offset " ++ toString offset ++ " in type `" ++ text ++
      "`"
  | unknownType text name => "unknown type `" ++ name ++ "` in `" ++ text ++ "`"
  | unknownAbility ability => "unknown ability `" ++ ability ++ "`"

end MoveTyping
