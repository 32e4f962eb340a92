import CodeAtlas.Number.Numeral

/-!
# Arguments and commands

The words of a command line are options and plain words. A long option opens with two dashes and
may carry its value after `=`; short options open with one dash and may stand together, the last of
them followed by its value. An option that needs a value takes the next word, whatever that is. Two
dashes alone end the options, and one dash alone is a plain word.
-/

namespace CodeAtlas

/-! ## Arguments -/

/-- An option, and whether it takes a value. -/
structure OptionShape where
  names : List String
  takesValue : Bool

namespace OptionShape

/-- The name that an option is kept under. -/
def key (o : OptionShape) : String := o.names.headD ""

/-- The option of a name. -/
def find? (shapes : List OptionShape) (name : String) : Option OptionShape :=
  shapes.find? (·.names.contains name)

end OptionShape

/-- Options and plain words as they were given. -/
structure Arguments where
  options : List (String × String)
  words : List String
deriving DecidableEq

namespace Arguments

/-- The option was given. -/
def has (a : Arguments) (key : String) : Bool := a.options.any (·.1 == key)

/-- All values given to an option. -/
def all (a : Arguments) (key : String) : List String :=
  (a.options.filter (·.1 == key)).map (·.2)

/-- The last value given to an option. -/
def last? (a : Arguments) (key : String) : Option String := (a.all key).getLast?

end Arguments

/-- The options in a word, and whether the next word is used up; none if unknown. -/
abbrev OptionReading : Type := Option (List (String × String) × Bool)

/-- The value of an option, in its own word or the next. -/
def optionValue (key : String) (carried next : Option String) : OptionReading :=
  match carried, next with
  | some value, _ => some ([(key, value)], false)
  | none, some value => some ([(key, value)], true)
  | none, none => none

/-- A word with two dashes. -/
def longOption (shapes : List OptionShape) (word : String) (next : Option String) : OptionReading :=
  let (name, rest) := word.toList.span (· != '=')
  let carried := if rest.isEmpty then none else some (String.ofList (rest.drop 1))
  match OptionShape.find? shapes (String.ofList name) with
  | none => none
  | some o =>
    if o.takesValue then optionValue o.key carried next
    else if carried.isSome then none
    else some ([(o.key, "")], false)

/-- A word with one dash. -/
def shortOptions (shapes : List OptionShape) (next : Option String) : List Char → OptionReading
  | [] => some ([], false)
  | letter :: letters =>
    match OptionShape.find? shapes (String.ofList ['-', letter]) with
    | none => none
    | some o =>
      if o.takesValue then
        optionValue o.key (if letters.isEmpty then none else some (String.ofList letters)) next
      else
        (shortOptions shapes next letters).map fun (more, taken) => ((o.key, "") :: more, taken)

/-- What a word says as an option. -/
def readOption? (shapes : List OptionShape) (word : String) (next : Option String) :
    OptionReading :=
  if Text.startsWith word "--" then longOption shapes word next
  else shortOptions shapes next (word.toList.drop 1)

/-- The word starts like an option. -/
def looksLikeOption (word : String) : Bool := Text.startsWith word "-" && word != "-"

/-- The arguments that words stand for; unless `mixed`, a plain word ends the options. -/
def readArguments? (shapes : List OptionShape) (mixed : Bool) (given : List String) :
    Option Arguments :=
  match given with
  | [] => some ⟨[], []⟩
  | word :: rest =>
    if word == "--" then some ⟨[], rest⟩
    else if looksLikeOption word then
      match readOption? shapes word rest.head? with
      | none => none
      | some (found, taken) =>
        (readArguments? shapes mixed (rest.drop (if taken then 1 else 0))).map fun a =>
          { a with options := found ++ a.options }
    else if mixed then
      (readArguments? shapes mixed rest).map fun a => { a with words := word :: a.words }
    else some ⟨[], word :: rest⟩
termination_by given.length
decreasing_by all_goals simp_wf; try omega

/-! ## Commands -/

/-- A graph that is asked for. -/
structure GraphCommand where
  root : String
  layout : String
  nodeKinds : List String
  edgeKinds : List String
  external : Bool
  depth : Int
  output : Option String
deriving DecidableEq

/-- A graph to be written to a file. -/
structure ExportCommand where
  root : String
  output : String
  format : String
  focus : String
  layout : String
deriving DecidableEq

/-- The impact of a change that is asked for. -/
structure ImpactCommand where
  symbol : String
  file : Option String
  asJson : Bool
  ripple : Bool
  maxDepth : Int
  includeTests : Bool
  minScore : Float

/-- Advice that is asked for. -/
structure ArchitectureCommand where
  path : Option String
  issues : List String
  minConfidence : Float
  enhance : Bool

/-- A text provider to be chosen; an empty text leaves a choice open. -/
structure ProviderCommand where
  provider : String
  model : String
  apiKey : String
  endpoint : String
deriving DecidableEq

/-- What can be asked for. -/
inductive Command where
  | graph (c : GraphCommand)
  | stats (root : String) (top : Int)
  | cycles (root : String)
  | write (c : ExportCommand)
  | impact (c : ImpactCommand)
  | architecture (c : ArchitectureCommand)
  | setProvider (c : ProviderCommand)
  | showProvider
  | setKnowledge (endpoint apiKey : String)

/-! ## Words of a command -/

/-- The commands, with the least and greatest numbers of plain words. -/
def commandWords : List (String × Nat × Nat) :=
  [("graph", 0, 1), ("stats", 0, 1), ("cycles", 0, 1), ("export", 2, 2), ("impact", 1, 1),
    ("architecture", 0, 1), ("set-llm", 1, 1), ("show-llm", 0, 0), ("set-knowledge", 1, 1)]

/-- The options of a command. -/
def commandOptions (name : String) : List OptionShape :=
  ⟨["--help"], false⟩ ::
    match name with
    | "graph" =>
      [⟨["--layout", "-l"], true⟩, ⟨["--node-type", "-n"], true⟩, ⟨["--edge-type", "-e"], true⟩,
        ⟨["--include-external"], false⟩, ⟨["--depth", "-d"], true⟩, ⟨["--output", "-o"], true⟩]
    | "stats" => [⟨["--top"], true⟩]
    | "export" =>
      [⟨["--format", "-f"], true⟩, ⟨["--focus"], true⟩, ⟨["--layout", "-l"], true⟩]
    | "impact" =>
      [⟨["--file", "-f"], true⟩, ⟨["--json"], false⟩, ⟨["--ripple"], false⟩,
        ⟨["--max-depth"], true⟩, ⟨["--include-tests"], false⟩, ⟨["--min-score"], true⟩]
    | "architecture" =>
      [⟨["--issue", "-i"], true⟩, ⟨["--min-confidence"], true⟩, ⟨["--enhance"], false⟩]
    | "set-llm" =>
      [⟨["--model", "-m"], true⟩, ⟨["--api-key", "-k"], true⟩, ⟨["--endpoint", "-e"], true⟩]
    | "set-knowledge" => [⟨["--api-key", "-k"], true⟩]
    | _ => []

namespace Arguments

/-- The text of an option. -/
def text (a : Arguments) (key otherwise : String) : String := (a.last? key).getD otherwise

/-- The integer of an option. -/
def whole? (a : Arguments) (key : String) (otherwise : Int) : Option Int :=
  match a.last? key with
  | none => some otherwise
  | some s => plainInt? s

/-- The number of an option. -/
def number? (a : Arguments) (key : String) (otherwise : Float) : Option Float :=
  match a.last? key with
  | none => some otherwise
  | some s => plainFloat? s

/-- The text can name a file: it holds no null character. -/
def namesFile (s : String) : Bool := !s.toList.contains (Char.ofNat 0)

/-- The path of an option, if it is one. -/
def path? (a : Arguments) (key : String) : Option (Option String) :=
  match a.last? key with
  | none => some none
  | some s => if namesFile s then some (some s) else none

/-- The plain word at a place. -/
def word (a : Arguments) (place : Nat) (otherwise : String) : String :=
  a.words.getD place otherwise

/-- The command of a name; none if an argument is of the wrong kind. -/
def command? (a : Arguments) (name : String) : Option Command :=
  match name with
  | "graph" => do
    return .graph
      { root := a.word 0 "."
        layout := a.text "--layout" "force"
        nodeKinds := a.all "--node-type"
        edgeKinds := a.all "--edge-type"
        external := a.has "--include-external"
        depth := ← a.whole? "--depth" 5
        output := ← a.path? "--output" }
  | "stats" => do return .stats (a.word 0 ".") (← a.whole? "--top" 10)
  | "cycles" => some (.cycles (a.word 0 "."))
  | "export" =>
    if namesFile (a.word 1 "") then some <| .write
      { root := a.word 0 ""
        output := a.word 1 ""
        format := a.text "--format" "json"
        focus := a.text "--focus" ""
        layout := a.text "--layout" "force" }
    else none
  | "impact" => do
    return .impact
      { symbol := a.word 0 ""
        file := a.last? "--file"
        asJson := a.has "--json"
        ripple := a.has "--ripple"
        maxDepth := ← a.whole? "--max-depth" 3
        includeTests := a.has "--include-tests"
        minScore := ← a.number? "--min-score" 10 }
  | "architecture" => do
    return .architecture
      { path := a.words.head?
        issues := a.all "--issue"
        minConfidence := ← a.number? "--min-confidence" 0.5
        enhance := a.has "--enhance" }
  | "set-llm" =>
    some <| .setProvider
      { provider := a.word 0 ""
        model := a.text "--model" ""
        apiKey := a.text "--api-key" ""
        endpoint := a.text "--endpoint" "" }
  | "show-llm" => some .showProvider
  | "set-knowledge" => some (.setKnowledge (a.word 0 "") (a.text "--api-key" ""))
  | _ => none

end Arguments

/-- What the words behind a command mean. -/
inductive CommandReading where
  | command (c : Command)
  | help
  | misuse

/-- The words behind a command read. -/
def readCommand (name : String) (words : List String) : CommandReading :=
  match readArguments? (commandOptions name) true words, commandWords.lookup name with
  | some a, some (least, greatest) =>
    if a.has "--help" then .help
    else if a.words.length < least || greatest < a.words.length then .misuse
    else
      match a.command? name with
      | some c => .command c
      | none => .misuse
  | _, _ => .misuse

/-! ## Whole command lines -/

/-- The options in front of the command. -/
def leadingOptions : List OptionShape :=
  [⟨["--repo", "-r"], true⟩, ⟨["--verbose"], false⟩, ⟨["--version", "-v"], false⟩,
    ⟨["--help"], false⟩]

/-- What a command line means. -/
inductive Invocation where
  | version
  | help
  | misuse
  | command (repo name : String) (words : List String)
deriving DecidableEq

/-- What the leading options ask for at once: version or help. -/
def Arguments.atOnce? (a : Arguments) : Option Invocation :=
  a.options.findSome? fun (key, _) =>
    if key == "--version" then some .version else if key == "--help" then some .help else none

/-- The word starts with no letter or digit. -/
def opensWithMark (word : String) : Bool :=
  match word.toList with
  | [] => false
  | c :: _ => !c.isAlphanum

/-- What words mean if the first is no command: perhaps options after all. -/
def readStray (words : List String) : Invocation :=
  if words.head?.any opensWithMark then
    ((readArguments? leadingOptions false words).bind Arguments.atOnce?).getD .misuse
  else .misuse

/-- What all words of a command line mean. -/
def readInvocation (words : List String) : Invocation :=
  match readArguments? leadingOptions false words with
  | none => .misuse
  | some a =>
    match a.atOnce?, a.words with
    | some asked, _ => asked
    | none, [] => .misuse
    | none, name :: rest =>
      if !Arguments.namesFile (a.text "--repo" ".") then .misuse
      else if commandWords.any (·.1 == name) then .command (a.text "--repo" ".") name rest
      else readStray (name :: rest)

end CodeAtlas
