import TableParsing.Text.Hexadecimal

/-!
# Request targets

What a client names in a request: an address, or the part of an address from its path on. Only the
path matters. The scheme, the authority, the query and the fragment are cut off, and a path that
reads as an address itself is cut once more (`Target.reference`). A path is compared as bytes, in
which a percent sign with two hexadecimal digits stands for one byte, and it starts with exactly
one slash (`Target.path`).
-/

namespace TableParsing.Service.Target

/-- The byte of a slash. -/
def slash : UInt8 := 0x2F

/-- Whether a character may stand in the name of a scheme after its first letter. -/
def isSchemeChar (c : Char) : Bool := c.isAlphanum || c = '+' || c = '-' || c = '.'

/-- Cuts the name of a scheme with its colon off the front. -/
def dropScheme (cs : List Char) : List Char :=
  let name := cs.takeWhile (· ≠ ':')
  match name, cs.drop name.length with
  | first :: others, _ :: rest => if first.isAlpha && others.all isSchemeChar then rest else cs
  | _, _ => cs

/-- Cuts an authority, which follows two slashes, off the front. -/
def dropAuthority : List Char → List Char
  | '/' :: '/' :: cs => cs.dropWhile fun c => c ≠ '/' && c ≠ '?' && c ≠ '#'
  | cs => cs

/-- The part of an address that counts: all but the control characters and spaces in front of it
and the tabs and line breaks inside it. -/
def relevant (cs : List Char) : List Char :=
  (cs.dropWhile fun c => c.toNat ≤ 0x20).filter fun c => c ≠ '\t' && c ≠ '\n' && c ≠ '\r'

/-- The path of an address. -/
def addressPath (cs : List Char) : List Char :=
  (dropAuthority (dropScheme (relevant cs))).takeWhile fun c => c ≠ '?' && c ≠ '#'

/-- The path that a target names, as it is written. -/
def reference (target : String) : List Char :=
  relevant (addressPath (addressPath target.toList))

/-- The bytes of a written path. -/
def percentDecoded : List Char → List UInt8
  | [] => []
  | '%' :: a :: b :: cs =>
    match Text.hexValue? a, Text.hexValue? b with
    | some high, some low => UInt8.ofNat (16 * high + low) :: percentDecoded cs
    | _, _ => 0x25 :: percentDecoded (a :: b :: cs)
  | c :: cs => (String.singleton c).toUTF8.toList ++ percentDecoded cs

/-- The path that a target names, with one slash in front; a target without a path has none. -/
def path (target : String) : List UInt8 :=
  match percentDecoded (reference target) with
  | [] => []
  | bytes => slash :: bytes.dropWhile (· = slash)

end TableParsing.Service.Target
