import Midend.Context
import Midend.Word

/-! # Command line options

Options may be given in a short or a long form. The value of an option follows it, and the options for
features and passes take all values up to the next option.
-/

namespace Midend.Bench

/-- What can be given on a command line. -/
inductive Switch where
  | dump | verify | time
  /-- The samples are worked on one after the other. -/
  | serial
  /-- More is told on the way. -/
  | verbose
  | copies | disable | pass
deriving DecidableEq, Inhabited

namespace Switch

def name : Switch → String
  | dump => "dump"
  | verify => "verify"
  | time => "time"
  | serial => "no-parallel"
  | verbose => "v"
  | copies => "copies"
  | disable => "disable"
  | pass => "pass"

def short? : Char → Option Switch
  | 'd' => some dump
  | 't' => some time
  | 's' => some serial
  | 'v' => some verbose
  | 'n' => some copies
  | 'D' => some disable
  | 'p' => some pass
  | _ => none

def long? (s : String) : Option Switch :=
  [dump, verify, time, serial, copies, disable, pass].find? (·.name == s)

def takesValue : Switch → Bool
  | copies | disable | pass => true
  | _ => false

/-- The switch may be given again, and one that takes a value takes any number of them. -/
def isRepeatable : Switch → Bool
  | verbose | disable | pass => true
  | _ => false

/-- The switch that takes the next value, once this one has taken one. -/
def afterValue (s : Switch) : Option Switch := if s.isRepeatable then some s else none

end Switch

/-! ## Reading -/

/-- What a command line holds, in its order. -/
structure Given where
  switches : List Switch := []
  values : List (Switch × String) := []
deriving DecidableEq, Inhabited

namespace Given

def addSwitch (g : Given) (s : Switch) : Given := { g with switches := g.switches ++ [s] }

def addValue (g : Given) (s : Switch) (v : String) : Given := { g with values := g.values ++ [(s, v)] }

def valuesOf (g : Given) (s : Switch) : List String :=
  (g.values.filter fun (t, _) => t == s).map (·.2)

end Given

/-- The value behind equals signs. -/
def behindEquals (cs : List Char) : String := String.ofList (cs.dropWhile (· == '='))

/-- An argument in the place of a value. -/
def isValue (arg : String) : Bool :=
  match arg.toList with
  | '-' :: _ :: _ => false
  | _ => true

/-- Reads short options written together, such as `-ds`. The rest behind one that takes a value is its
value, and its only one if it stands behind an equals sign. Returns what was given, with the switch that takes
the next value. -/
def readShort (arg : String) : Given → List Char → Except String (Given × Option Switch)
  | g, [] => .ok (g, none)
  | g, c :: rest =>
    match Switch.short? c with
    | none => .error arg
    | some s =>
      let g := g.addSwitch s
      if !s.takesValue then readShort arg g rest
      else match rest with
        | [] => .ok (g, some s)
        | '=' :: _ => .ok (g.addValue s (behindEquals rest), none)
        | _ => .ok (g.addValue s (String.ofList rest), s.afterValue)

/-- Reads a long option, whose only value may stand behind an equals sign. What stands there without being
taken is passed over. -/
def readLong (arg : String) (g : Given) : Except String (Given × Option Switch) :=
  let body := arg.toList.dropWhile (· == '-')
  match Switch.long? (String.ofList (body.takeWhile (· != '='))) with
  | none => .error arg
  | some s =>
    let g := g.addSwitch s
    if !s.takesValue then .ok (g, none)
    else match body.dropWhile (· != '=') with
      | [] => .ok (g, some s)
      | value => .ok (g.addValue s (behindEquals value), none)

def readOption (g : Given) (arg : String) : Except String (Given × Option Switch) :=
  match arg.toList with
  | '-' :: '-' :: _ => readLong arg g
  | '-' :: c :: rest => readShort arg g (c :: rest)
  | _ => .error arg

/-- Takes one argument into account. A switch need not take the value it could. An argument that does not fit
is the error. -/
def readArg (g : Given) (awaiting : Option Switch) (arg : String) : Except String (Given × Option Switch) :=
  match awaiting with
  | some s => if isValue arg then .ok (g.addValue s arg, s.afterValue) else readOption g arg
  | none => readOption g arg

/-- Reads the arguments. Two dashes end the options, and nothing may follow them. -/
def readArgs : Given → Option Switch → List String → Except String Given
  | g, _, [] | g, _, ["--"] => .ok g
  | _, _, "--" :: arg :: _ => .error arg
  | g, awaiting, arg :: rest => do
    let (g, awaiting) ← readArg g awaiting arg
    readArgs g awaiting rest

/-! ## Options -/

structure Options where
  dump : Bool := false
  verify : Bool := false
  time : Bool := false
  /-- The number of copies of each sample, as it was given. -/
  copies : String := "1"
  disabled : List String := []
  /-- The stages to run instead of the usual ones, if any were given. -/
  passes : List String := []
deriving DecidableEq, Inhabited

/-- The switch is given more often than it may be, or without a value although it has no usual one. -/
def Given.misuses (g : Given) (s : Switch) : Bool :=
  if s.isRepeatable then s.takesValue && (g.valuesOf s).isEmpty else 1 < g.switches.count s

/-- The options that a command line asks for, or what does not fit in it. -/
def Options.ofArgs (args : List String) : Except String Options := do
  let g ← readArgs {} none args
  match g.switches.find? g.misuses with
  | some s => throw s.name
  | none => return {
      dump := g.switches.contains .dump
      verify := g.switches.contains .verify
      time := g.switches.contains .time
      copies := (g.valuesOf .copies).headD "1"
      disabled := g.valuesOf .disable
      passes := g.valuesOf .pass }

/-! ## Meaning of values -/

/-- The configuration without a feature. -/
def disableFeature? (c : Config) : String → Option Config
  | "cha" => some { c with useClassHierarchy := false }
  | "types" => some { c with propagateTypes := false }
  | "sccp" => some { c with constantPropagation := false }
  | "loadcse" => some { c with loadElimination := false }
  | "cse" => some { c with commonSubexpressions := false }
  | "licm" => some { c with loopInvariantMotion := false }
  | "range" => some { c with rangeAnalysis := false }
  | "bce" => some { c with boundsCheckElimination := false }
  | "mints" => some { c with unboxedMints := false }
  | _ => none

/-- Reads decimal digits behind a number, in a way that notices the first fault. -/
def readDigits : Nat → List Char → Except String Nat
  | n, [] => .ok n
  | n, c :: cs =>
    if !c.isDigit then .error "invalid digit found in string"
    else
      let n := 10 * n + (c.toNat - '0'.toNat)
      if n < Word.countLimit then readDigits n cs
      else .error "number too large to fit in target type"

/-- Reads a number of copies, which may have a plus sign in front. -/
def readCopies (s : String) : Except String Nat :=
  match s.toList with
  | [] => .error "cannot parse integer from empty string"
  | '+' :: c :: cs => readDigits 0 (c :: cs)
  | cs => readDigits 0 cs

end Midend.Bench
