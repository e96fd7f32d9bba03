import PadicLift.Text.Numeral

/-!
# Command line options

Words of a command line become options. A long option may be shortened as long as only one option
fits, and its value may be attached by an equals sign. A word that starts with a dash and is not a
number is an option, never a value. No words are left over; anything else is refused. Numbers may be
written in the decimal digits of any script.
-/

namespace PadicLift
namespace CommandLine

/-- What a command line asks for. -/
structure Options where
  /-- The file with the system. -/
  input : String
  /-- The file with settings. -/
  config : Option String := none
  /-- Number of lifting primes; only a positive one counts. -/
  primesCount : Int := 0
  primes : Option (List Int) := none
  seed : Option Int := none
  verifySteps : Bool := false
  /-- Where manifest and logs go. -/
  outputDir : Option String := none
deriving DecidableEq, Repr

/-- The options there are. -/
inductive Flag
  | help | input | config | primesCount | primes | seed | verifySteps | outputDir
deriving DecidableEq, Repr

/-- The long names of options. -/
def flagNames : List (String × Flag) :=
  [("--help", .help), ("--input", .input), ("--config", .config),
   ("--primes-count", .primesCount), ("--primes", .primes), ("--seed", .seed),
   ("--verify-steps", .verifySteps), ("--output-dir", .outputDir)]

/-! ## Words -/

/-- What a word is. -/
inductive Word
  | value (text : String)
  | flag (name : Flag) (attached : Option String)
  /-- A word that belongs to nothing. -/
  | stray
deriving DecidableEq, Repr

/-- The part in front of the first equals sign and the part behind it. -/
def splitEquals (w : String) : String × Option String :=
  match w.toList.dropWhile (· != '=') with
  | _ :: behind => (String.ofList (w.toList.takeWhile (· != '=')), some (String.ofList behind))
  | [] => (w, none)

/-- Whether a word is a negative number; a line end may follow it. -/
def isNegativeNumber (w : String) : Bool :=
  match w.toList with
  | '-' :: body =>
    let digits := body.takeWhile Text.isDecimalDigit
    let isEnd (cs : List Char) : Bool := cs.isEmpty || cs == ['\n']
    match body.dropWhile Text.isDecimalDigit with
    | '.' :: fraction =>
      let places := fraction.takeWhile Text.isDecimalDigit
      !places.isEmpty && isEnd (fraction.dropWhile Text.isDecimalDigit)
    | rest => !digits.isEmpty && isEnd rest
  | _ => false

/-- The names that a shortened long name fits. -/
def fitting (short : String) : List (String × Flag) :=
  if "--".toList.isPrefixOf short.toList then
    flagNames.filter fun f => short.toList.isPrefixOf f.1.toList
  else []

/-- The short name for help with the characters behind it, perhaps after an equals sign. Each of
them has to be a short name again, and there is no other one. -/
def shortHelp (behind : List Char) : Word :=
  let letters :=
    match behind with
    | '=' :: attached => attached
    | _ => behind
  let isRequest := behind.isEmpty || (!letters.isEmpty && letters.all (· == 'h'))
  .flag .help (if isRequest then none else some (String.ofList letters))

/-- What a word is; `none` for a shortened name that fits several options. -/
def classify (w : String) : Option Word :=
  match w.toList with
  | '-' :: 'h' :: behind => some (shortHelp behind)
  | '-' :: _ :: _ =>
    let (name, attached) := splitEquals w
    match flagNames.lookup w, flagNames.lookup name, fitting name with
    | some f, _, _ => some (.flag f none)
    | none, some f, _ => some (.flag f attached)
    | none, none, [f] => some (.flag f.2 attached)
    | none, none, [] =>
      if isNegativeNumber w || w.toList.contains ' ' then some (.value w) else some .stray
    | none, none, _ => none
  | _ => some (.value w)

/-- What all words are. Behind a word of two dashes there are no options. -/
def classifyAll : List String → Option (List Word)
  | [] => some []
  | "--" :: rest => some (.stray :: rest.map .value)
  | w :: rest => do
    let x ← classify w
    let xs ← classifyAll rest
    return x :: xs

/-! ## Command lines -/

/-- Options as far as they have been read. -/
structure Draft where
  input : Option String := none
  options : Options := { input := "" }
  /-- Whether some word belonged to nothing. -/
  hasStray : Bool := false
deriving DecidableEq, Repr

/-- What a command line comes to. -/
inductive Request
  | run (options : Options)
  | help
  | refused
deriving DecidableEq, Repr

/-- The integer that a word spells. -/
def integer? (w : String) : Option Int := (Numeral.integer (Text.ofString w)).toOption

/-- Sets an option that takes one value. -/
def Draft.set (p : Draft) (f : Flag) (v : String) : Option Draft :=
  match f with
  | .input => some { p with input := some v }
  | .config => some { p with options := { p.options with config := some v } }
  | .outputDir => some { p with options := { p.options with outputDir := some v } }
  | .primesCount =>
    (integer? v).map fun k => { p with options := { p.options with primesCount := k } }
  | .seed => (integer? v).map fun k => { p with options := { p.options with seed := some k } }
  | .primes =>
    (integer? v).map fun k => { p with options := { p.options with primes := some [k] } }
  | _ => none

/-- The values at the head of some words. -/
def leadingValues : List Word → List String
  | .value v :: rest => v :: leadingValues rest
  | _ => []

/-- Reads words from left to right. `taken` counts the words that already belong to an option. -/
def readWords : List Word → Nat → Draft → Request
  | [], _, p =>
    match p.input, p.hasStray with
    | some path, false => .run { p.options with input := path }
    | _, _ => .refused
  | _ :: rest, taken + 1, p => readWords rest taken p
  | .value _ :: rest, 0, p => readWords rest 0 { p with hasStray := true }
  | .stray :: rest, 0, p => readWords rest 0 { p with hasStray := true }
  | .flag .help none :: _, 0, _ => .help
  | .flag .help (some _) :: _, 0, _ => .refused
  | .flag .verifySteps none :: rest, 0, p =>
    readWords rest 0 { p with options := { p.options with verifySteps := true } }
  | .flag .verifySteps (some _) :: _, 0, _ => .refused
  | .flag .primes none :: rest, 0, p =>
    let values := leadingValues rest
    match values, values.mapM integer? with
    | _ :: _, some ps =>
      readWords rest values.length { p with options := { p.options with primes := some ps } }
    | _, _ => .refused
  | .flag f (some v) :: rest, 0, p =>
    match p.set f v with
    | some next => readWords rest 0 next
    | none => .refused
  | .flag f none :: rest, 0, p =>
    match leadingValues rest with
    | v :: _ =>
      match p.set f v with
      | some next => readWords rest 1 next
      | none => .refused
    | [] => .refused

/-- The request that the words of a command line make. -/
def request (words : List String) : Request :=
  match classifyAll words with
  | some ws => readWords ws 0 {}
  | none => .refused

/-- What is shown on request. -/
def helpText : String :=
  String.intercalate "\n"
    ["usage: solve_system [-h] --input INPUT [--config CONFIG]",
     "                    [--primes-count PRIMES_COUNT]",
     "                    [--primes PRIMES [PRIMES ...]] [--seed SEED]",
     "                    [--verify-steps] [--output-dir OUTPUT_DIR]",
     "",
     "Exact rational solve via RNS Dixon lifting",
     "",
     "options:",
     "  -h, --help            show this help message and exit",
     "  --input INPUT         JSON/YAML file with 'A' and 'b'",
     "  --config CONFIG       YAML lifting config (see configs/default.yaml)",
     "  --primes-count PRIMES_COUNT",
     "                        Number of lifting primes (0 = from config)",
     "  --primes PRIMES [PRIMES ...]",
     "                        Explicit lifting primes",
     "  --seed SEED",
     "  --verify-steps        Exact big-int check of every lifting step",
     "  --output-dir OUTPUT_DIR",
     "                        Write manifest.json and JSONL logs here",
     ""]

end CommandLine
end PadicLift
