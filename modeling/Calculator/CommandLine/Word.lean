/-!
# CommandLine.Word — what one word of a command line is

A word that starts with a hyphen and is not a hyphen alone is an option or nothing known.  A value may be attached to
its option: after an equals sign, and after the letter of a short option also without one.
-/
namespace Calculator

inductive OptionName where
  | mode
  | maxDepth
deriving DecidableEq, Repr

inductive Word where
  /-- Two hyphens: no option follows. -/
  | separator
  | help
  /-- The flag that takes no value was given one. -/
  | helpWithValue
  | option (name : OptionName) (attached : Option String)
  | unknown
  | plain (text : String)
deriving DecidableEq, Repr

namespace Word

/-- A long option, its two hyphens taken off. -/
def ofLong (long : List Char) : Word :=
  let attached := match long.dropWhile (· != '=') with
    | [] => none
    | _ :: value => some (String.ofList value)
  match String.ofList (long.takeWhile (· != '=')) with
  | "mode" => option .mode attached
  | "max-depth" => option .maxDepth attached
  | "help" => if attached.isSome then helpWithValue else help
  | _ => unknown

/-- A short option, its hyphen taken off. -/
def ofShort : List Char → Word
  | 'h' :: _ => help
  | ['m'] => option .mode none
  | 'm' :: '=' :: value => option .mode (some (String.ofList value))
  | 'm' :: value => option .mode (some (String.ofList value))
  | _ => unknown

def ofString (w : String) : Word :=
  match w.toList with
  | ['-', '-'] => separator
  | '-' :: '-' :: long => ofLong long
  | ['-'] => plain w
  | '-' :: short => ofShort short
  | _ => plain w

end Word
end Calculator
