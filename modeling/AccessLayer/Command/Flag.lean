import AccessLayer.Text.Quoted

/-!
# Flags

A flag is written with two dashes and its name or, if it has one, with one dash and its letter;
letters may be joined. A flag with a value takes it after an equals sign or from the next argument.
Flags and other arguments may be mixed, and two dashes alone end the flags.

* `Flag`: a flag.
* `UsageFault`: what is wrong with a command line.
* `Given.parse`: the flags and arguments of a command line.
-/

namespace AccessLayer.Command

/-- A flag of a command. -/
structure Flag where
  name : Bytes
  letter : Option Char := none
  /-- Whether it takes a text; otherwise it is a switch. -/
  takesText : Bool
deriving DecidableEq, Repr

def Flag.shown (f : Flag) : Bytes :=
  match f.letter with
  | some c => "-" ++ Bytes.ofChars [c] ++ ", --" ++ f.name
  | none => "--" ++ f.name

/-- What is wrong with a command line. -/
inductive UsageFault where
  /-- The program has no such command; similar ones are suggested. -/
  | unknownCommand (name command : Bytes) (similar : List Bytes)
  | unexpectedArg (arg command : Bytes)
  | wrongCount (wanted got : Nat)
  | badSyntax (arg : Bytes)
  | unknownFlag (name : Bytes)
  | unknownLetter (letter : Char) (letters : Bytes)
  | valueMissing (name : Bytes)
  | badSwitch (value : Bytes) (flag : Flag)
  /-- Flags of a group stand together that exclude each other. -/
  | exclusive (group set : List Bytes)
deriving DecidableEq, Repr

def suggestion (name : Bytes) : Bytes := "\t" ++ name ++ "\n"

def suggestions (names : List Bytes) : Bytes :=
  if names.isEmpty then [] else "\n\nDid you mean this?\n" ++ names.flatMap suggestion

def UsageFault.message : UsageFault → Bytes
  | unknownCommand name command similar =>
    "unknown command " ++ Bytes.quote name ++ " for " ++ Bytes.quote command ++
      suggestions similar
  | unexpectedArg arg command =>
    "unknown command " ++ Bytes.quote arg ++ " for " ++ Bytes.quote command
  | wrongCount wanted got =>
    "accepts " ++ Bytes.ofNat wanted ++ " arg(s), received " ++ Bytes.ofNat got
  | badSyntax arg => "bad flag syntax: " ++ arg
  | unknownFlag name => "unknown flag: --" ++ name
  | unknownLetter letter letters =>
    "unknown shorthand flag: " ++ quoteChar letter ++ " in -" ++ letters
  | valueMissing name => "flag needs an argument: --" ++ name
  | badSwitch value flag =>
    "invalid argument " ++ Bytes.quote value ++ " for " ++ Bytes.quote flag.shown ++
      " flag: strconv.ParseBool: parsing " ++ Bytes.quote value ++ ": invalid syntax"
  | exclusive group set =>
    "if any flags in the group [" ++ Bytes.join " " group ++
      "] are set none of the others can be; [" ++ Bytes.join " " (Bytes.sort set) ++
      "] were all set"

/-! ## Values -/

def switch? (value : Bytes) : Option Bool :=
  if ["1", "t", "T", "TRUE", "true", "True"].any fun w => value == Bytes.ofString w then some true
  else if ["0", "f", "F", "FALSE", "false", "False"].any fun w => value == Bytes.ofString w then
    some false
  else none

/-- The flags and arguments of a command line. -/
structure Given where
  /-- The values of the flags, the last one first. -/
  flags : List (Bytes × Bytes) := []
  args : List Bytes := []
deriving DecidableEq, Repr

namespace Given

def set (g : Given) (f : Flag) (value : Bytes) : Except UsageFault Given :=
  if f.takesText || (switch? value).isSome then .ok { g with flags := (f.name, value) :: g.flags }
  else .error (.badSwitch value f)

def text (g : Given) (name default : Bytes) : Bytes := (g.flags.lookup name).getD default

def isOn (g : Given) (name : Bytes) : Bool := ((g.flags.lookup name).bind switch?).getD false

def setAmong (g : Given) (group : List Bytes) : List Bytes :=
  group.filter fun name => g.flags.any (·.1 == name)

/-! ## Reading -/

def on : Bytes := "true"

def long (flags : List Flag) (g : Given) (arg : Bytes) (rest : List Bytes) :
    Except UsageFault (Given × List Bytes) := do
  let body := arg.drop 2
  if body.head?.all fun b => b == Bytes.byte '-' || b == Bytes.byte '=' then
    throw (.badSyntax arg)
  else
    let (name, value) := Bytes.cut (Bytes.byte '=') body
    match flags.find? (·.name == name) with
    | none => throw (.unknownFlag name)
    | some f =>
      match value with
      | some v => return (← g.set f v, rest)
      | none =>
        if !f.takesText then return (← g.set f on, rest)
        else
          match rest with
          | v :: rest => return (← g.set f v, rest)
          | [] => throw (.valueMissing name)

/-- Reads switches by their letters. No flag with a text has a letter. -/
def short (flags : List Flag) (g : Given) (letters : Bytes) : Except UsageFault Given :=
  match letters with
  | [] => .ok g
  | b :: rest =>
    let c := Char.ofNat b.toNat
    match flags.find? (·.letter == some c) with
    | none => .error (.unknownLetter c letters)
    | some f =>
      match rest with
      | e :: v :: value =>
        if e == Bytes.byte '=' then g.set f (v :: value)
        else do short flags (← g.set f on) rest
      | _ => do short flags (← g.set f on) rest

def read (flags : List Flag) (fuel : Nat) (g : Given) (args : List Bytes) :
    Except UsageFault Given :=
  match fuel, args with
  | 0, _ | _, [] => .ok g
  | fuel + 1, arg :: rest => do
    match arg with
    | 45 :: 45 :: [] => return { g with args := g.args ++ rest }
    | 45 :: 45 :: _ =>
      let (g, rest) ← long flags g arg rest
      read flags fuel g rest
    | 45 :: b :: letters =>
      let g ← short flags g (b :: letters)
      read flags fuel g rest
    | _ => read flags fuel { g with args := g.args ++ [arg] } rest

def parse (flags : List Flag) (args : List Bytes) : Except UsageFault Given :=
  read flags (args.length + 1) {} args

end Given

end AccessLayer.Command
