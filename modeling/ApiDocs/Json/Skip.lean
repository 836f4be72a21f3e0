import ApiDocs.Json.Reader
/-!
# Passing over JSON text

A value that nobody asks for is only looked at for where it ends. Its grammar must be right, but
its numbers may be of any size, its nesting of any depth, and its escapes need not make characters.
-/
namespace ApiDocs.Json

/-- What is left after a string whose opening quote was passed. -/
def skipString? : List Char → Option (List Char)
  | [] => none
  | '"' :: rest => some rest
  | '\\' :: 'u' :: a :: b :: c :: d :: rest =>
    match hex4? a b c d with
    | none => none
    | some _ => skipString? rest
  | '\\' :: c :: rest => if (escapeLetter? c).isSome then skipString? rest else none
  | c :: rest => if c = '\\' || c.toNat < 0x20 then none else skipString? rest

/-- What is left after the members of an object, at least one of which is to come. -/
def skipMembers? (skip : List Char → Option (Unit × List Char)) :
    (bound : Nat) → List Char → Option (List Char)
  | 0, _ => none
  | bound + 1, cs =>
    match skipSpace cs with
    | '"' :: rest => do
      match skipSpace (← skipString? rest) with
      | ':' :: rest =>
        let (_, rest) ← skip rest
        match skipSpace rest with
        | ',' :: rest => skipMembers? skip bound rest
        | '}' :: rest => pure rest
        | _ => none
      | _ => none
    | _ => none

/-- What is left after a value. The bound is on levels of nesting and is never reached when it is
above the length of the text. -/
def skipValue? : (bound : Nat) → List Char → Option (Unit × List Char)
  | 0, _ => none
  | bound + 1, cs =>
    match skipSpace cs with
    | 'n' :: 'u' :: 'l' :: 'l' :: rest => some ((), rest)
    | 't' :: 'r' :: 'u' :: 'e' :: rest => some ((), rest)
    | 'f' :: 'a' :: 'l' :: 's' :: 'e' :: rest => some ((), rest)
    | '"' :: rest => (skipString? rest).map fun rest => ((), rest)
    | '[' :: rest =>
      match skipSpace rest with
      | ']' :: rest => some ((), rest)
      | rest => (items? (skipValue? bound) rest.length rest).map fun r => ((), r.2)
    | '{' :: rest =>
      match skipSpace rest with
      | '}' :: rest => some ((), rest)
      | rest => (skipMembers? (skipValue? bound) rest.length rest).map fun rest => ((), rest)
    | cs => (numberToken? cs).map fun r => ((), r.2)

end ApiDocs.Json
