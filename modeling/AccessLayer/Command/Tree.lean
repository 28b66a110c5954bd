import AccessLayer.Command.Flag

/-!
# Commands

* `Command`: the commands of the program.
* `Command.find`: the command that a command line names.
-/

namespace AccessLayer

/-- The commands of the program. -/
inductive Command where
  | root
  | generate
  | generateDb
  | generateEndpoint
  | config
  | configInit
  | version
  | help
  | completion
deriving DecidableEq, Repr

namespace Command

def name : Command → Bytes
  | root => "surqlgen"
  | generate => "generate"
  | generateDb => "db"
  | generateEndpoint => "endpoint"
  | config => "config"
  | configInit => "init"
  | version => "version"
  | help => "help"
  | completion => "completion"

def isNamed (c : Command) (word : Bytes) : Bool :=
  word == c.name || (c == generate && word == "g")

def children : Command → List Command
  | root => [generate, config, version, help, completion]
  | generate => [generateDb, generateEndpoint]
  | config => [configInit]
  | _ => []

def path : Command → Bytes
  | root => root.name
  | generateDb => root.name ++ " " ++ generate.name ++ " " ++ generateDb.name
  | generateEndpoint => root.name ++ " " ++ generate.name ++ " " ++ generateEndpoint.name
  | configInit => root.name ++ " " ++ config.name ++ " " ++ configInit.name
  | c => root.name ++ " " ++ c.name

/-! ## Flags -/

def commonFlags : List Flag :=
  [{ name := "root", takesText := true }, { name := "config", takesText := true },
    { name := "verbose", letter := some 'v', takesText := false }]

/-- The flags that name the definition of an endpoint, which exclude each other. -/
def sourceFlags : List Bytes := ["from-query", "from-mutation", "from-event", "from-schema"]

def ownFlags : Command → List Flag
  | generateDb => [{ name := "watch", letter := some 'w', takesText := false }]
  | generateEndpoint =>
    (sourceFlags.map fun name => { name, takesText := true }) ++
      [{ name := "method", takesText := true }]
  | configInit => [{ name := "force", letter := some 'f', takesText := false }]
  | _ => []

def flags (c : Command) : List Flag := c.ownFlags ++ commonFlags

def helpFlag : Flag := { name := "help", letter := some 'h', takesText := false }

/-! ## Finding a command -/

/-- Whether an argument is a flag that takes the next argument as its value. Flags that are not
known do so too. -/
def takesNext (flags : List Flag) (arg : Bytes) : Bool :=
  match arg with
  | 45 :: 45 :: name =>
    !arg.contains (Bytes.byte '=') && !flags.any fun f => f.name == name && !f.takesText
  | [45, letter] =>
    letter != Bytes.byte '=' &&
      !flags.any fun f => f.letter == some (Char.ofNat letter.toNat) && !f.takesText
  | _ => false

def words (flags : List Flag) (fuel : Nat) (args : List Bytes) : List Bytes :=
  match fuel, args with
  | 0, _ | _, [] => []
  | fuel + 1, arg :: rest =>
    if arg == "--" then []
    else if takesNext flags arg then
      match rest with
      | _ :: r :: rs => words flags fuel (r :: rs)
      | _ => []
    else if arg.head?.all (· == Bytes.byte '-') then words flags fuel rest
    else arg :: words flags fuel rest

def withoutWord (flags : List Flag) (word : Bytes) (fuel : Nat) (args : List Bytes) : List Bytes :=
  match fuel, args with
  | 0, _ | _, [] => args
  | fuel + 1, arg :: rest =>
    if arg == "--" then args
    else if takesNext flags arg then
      match rest with
      | v :: rest => arg :: v :: withoutWord flags word fuel rest
      | [] => args
    else if arg == word && arg.head? != some (Bytes.byte '-') then rest
    else arg :: withoutWord flags word fuel rest

/-- The command below a command that the arguments name, and the other arguments. -/
def descend (c : Command) (fuel : Nat) (args : List Bytes) : Command × List Bytes :=
  match fuel with
  | 0 => (c, args)
  | fuel + 1 =>
    match words c.flags (args.length + 1) args with
    | [] => (c, args)
    | word :: _ =>
      match c.children.find? (·.isNamed word) with
      | some d => d.descend fuel (withoutWord c.flags word (args.length + 1) args)
      | none => (c, args)

/-! ## Similar names -/

/-- The rest of a row of edit distances, from the entry to the left, the entry above that one and
the other entries above. -/
def distancesFrom (c : UInt8) (left corner : Nat) : List Nat → Bytes → List Nat
  | up :: ups, d :: ds =>
    let n := if c == d then corner else min (min up left) corner + 1
    n :: distancesFrom c n up ups ds
  | _, _ => []

/-- The edit distances between a word and the starts of another, from those of the word without its
last byte. -/
def distanceRow (c : UInt8) (previous : List Nat) (other : Bytes) : List Nat :=
  match previous with
  | first :: rest => (first + 1) :: distancesFrom c (first + 1) first rest other
  | [] => []

/-- The number of bytes to change, add or drop to make one word of another. -/
def distance (a b : Bytes) : Nat :=
  ((a.foldl (fun row c => distanceRow c row b) (List.range (b.length + 1))).getLast?).getD 0

def isSimilar (word name : Bytes) : Bool :=
  let w := Bytes.toLower word
  let n := Bytes.toLower name
  distance w n ≤ 2 || w.isPrefixOf n

def similar (word : Bytes) : List Bytes :=
  ((root.children.filter (· != help)).map name).filter (isSimilar word)

def find (args : List Bytes) : Except UsageFault (Command × List Bytes) :=
  let (c, rest) := root.descend 3 args
  match c, words c.flags (rest.length + 1) rest with
  | root, word :: _ => .error (.unknownCommand word root.path (similar word))
  | _, _ => .ok (c, rest)

def isRunnable : Command → Bool
  | generateDb | generateEndpoint | configInit | version => true
  | _ => false

def arity : Command → Nat
  | generateEndpoint => 1
  | _ => 0

def check (c : Command) (g : Given) : Except UsageFault Unit :=
  match c.arity, g.args with
  | 0, arg :: _ => .error (.unexpectedArg arg c.path)
  | n, args =>
    if n != args.length then .error (.wrongCount n args.length)
    else
      let set := g.setAmong sourceFlags
      if 1 < set.length then .error (.exclusive sourceFlags set) else .ok ()

end Command

end AccessLayer
