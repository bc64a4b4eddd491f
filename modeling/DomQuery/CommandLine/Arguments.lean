/-!
# Arguments

What the arguments of the command ask for.

The arguments are read from left to right and on two levels. In front of the
subcommand stand the flags that every subcommand knows; behind it stand those
again, the flags of its own, and its operands. Each level allows a flag once. An
argument of one dash and letters is a cluster of flags with one letter each; a
lone dash is an operand, and behind a double dash everything is.

Help and version are asked for by flags. Such a request is met as soon as the
flag is read, whatever stands behind it; a fault in front of it comes first. An
operand is checked where it stands, so the empty path of a document is such a
fault.

## Main definitions

* `Request`: What is asked for.
* `Usage`: Why arguments ask for nothing.
* `Arguments`: A request, and the flags that every subcommand knows.
* `Arguments.read`: The reader.
-/

namespace DomQuery

namespace CommandLine

/-- What is asked for. -/
inductive Request where
  /-- The spelling of a selector, or its tree. -/
  | parse (selector : String) (asJson : Bool)
  /-- The paths of the matches in a document, or of the first. -/
  | query (document selector : String) (firstOnly : Bool)
  /-- The dump of a document. -/
  | tree (document : String)
  | version
  | help
  deriving DecidableEq, Repr

/-- A request, and the flags that every subcommand knows. -/
structure Arguments where
  request : Request
  verbose : Bool := false
  noColor : Bool := false
  deriving DecidableEq, Repr

/-- Why arguments ask for nothing. -/
inductive Usage where
  | unknownFlag (flag : String)
  | repeatedFlag (flag : String)
  | unexpectedValue (flag : String)
  | unknownSubcommand (name : String)
  | missingSubcommand
  | missingOperand
  | unexpectedOperand (operand : String)
  | emptyPath
  deriving DecidableEq, Repr

/-- The wording of a fault. -/
def Usage.message : Usage → String
  | unknownFlag flag => "unknown option " ++ flag
  | repeatedFlag flag => "option " ++ flag ++ " given twice"
  | unexpectedValue flag => "option " ++ flag ++ " takes no value"
  | unknownSubcommand name => "unknown subcommand " ++ name
  | missingSubcommand => "a subcommand is needed: parse, query or tree"
  | missingOperand => "an operand is missing"
  | unexpectedOperand operand => "unexpected operand " ++ operand
  | emptyPath => "the path of a document cannot be empty"

/-- Why reading stops early: at a fault, or at a request that is met at once. -/
inductive Stop where
  | fault (usage : Usage)
  | request (request : Request)
  deriving DecidableEq, Repr

/-- The flags there are. -/
inductive Flag where
  | verbose
  | noColor
  | asJson
  | firstOnly
  | help
  | version
  deriving DecidableEq, Repr

/-- The subcommands there are. -/
inductive Subcommand where
  | parse
  | query
  | tree
  deriving DecidableEq, Repr

/-- The subcommand of a name. -/
def Subcommand.ofName? : String → Option Subcommand
  | "parse" => some .parse
  | "query" => some .query
  | "tree" => some .tree
  | _ => none

/-- The number of operands of a subcommand. -/
def Subcommand.arity : Subcommand → Nat
  | parse => 1
  | query => 2
  | tree => 1

/-- Whether the first operand of a subcommand is the path of a document. -/
def Subcommand.readsDocument : Subcommand → Bool
  | parse => false
  | query => true
  | tree => true

/-- The flags in front of the subcommand. -/
def leadingFlags : List Flag := [.verbose, .noColor, .help, .version]

/-- The flags behind a subcommand. -/
def Subcommand.flags : Subcommand → List Flag
  | parse => [.verbose, .noColor, .help, .asJson]
  | query => [.verbose, .noColor, .help, .firstOnly]
  | tree => [.verbose, .noColor, .help]

/-- The long name of a flag, which is written behind two dashes. -/
def Flag.name : Flag → String
  | verbose => "verbose"
  | noColor => "no-color"
  | asJson => "json"
  | firstOnly => "first"
  | help => "help"
  | version => "version"

/-- The letter of a flag that has one, which is written behind one dash. -/
def Flag.letter? : Flag → Option Char
  | verbose => some 'v'
  | help => some 'h'
  | version => some 'V'
  | _ => none

/-- What an argument in front of a double dash is. -/
inductive Argument where
  /-- The long name of a flag, and the value behind an equals sign. -/
  | long (name : String) (value : Option String)
  /-- The letters of a cluster. -/
  | cluster (letters : List Char)
  | operand (text : String)
  | doubleDash
  deriving DecidableEq, Repr

/-- The argument of a text. -/
def Argument.ofText (text : String) : Argument :=
  match text.toList with
  | ['-', '-'] => doubleDash
  | '-' :: '-' :: cs =>
    let name := String.ofList (cs.takeWhile (· != '='))
    match cs.dropWhile (· != '=') with
    | [] => long name none
    | _ :: value => long name (some (String.ofList value))
  | '-' :: c :: cs => cluster (c :: cs)
  | _ => operand text

/-- The flags given so far, with one more. -/
def addFlag (given : List Flag) : Flag → Except Stop (List Flag)
  | .help => .error (.request .help)
  | .version => .error (.request .version)
  | flag =>
    if given.contains flag then .error (.fault (.repeatedFlag ("--" ++ flag.name)))
    else .ok (flag :: given)

/-- The flags given so far, with the one of a long name. -/
def addLong (allowed given : List Flag) (name : String) (value : Option String) :
    Except Stop (List Flag) :=
  match allowed.find? (·.name == name), value with
  | none, _ => .error (.fault (.unknownFlag ("--" ++ name)))
  | some _, some _ => .error (.fault (.unexpectedValue ("--" ++ name)))
  | some flag, none => addFlag given flag

/-- The flags given so far, with those of a cluster. -/
def addCluster (allowed given : List Flag) : List Char → Except Stop (List Flag)
  | [] => .ok given
  | c :: cs =>
    match allowed.find? (·.letter? == some c) with
    | none => .error (.fault (.unknownFlag ("-" ++ c.toString)))
    | some flag =>
      match addFlag given flag with
      | .ok given => addCluster allowed given cs
      | .error stop => .error stop

/-- The arguments up to the subcommand: the flags among them, the name of the
    subcommand, and the arguments behind it. -/
def readLeading (given : List Flag) :
    List String → Except Stop (List Flag × String × List String)
  | [] => .error (.fault .missingSubcommand)
  | text :: rest =>
    match Argument.ofText text with
    | .doubleDash => .error (.fault .missingSubcommand)
    | .operand name => .ok (given, name, rest)
    | .long name value =>
      match addLong leadingFlags given name value with
      | .ok given => readLeading given rest
      | .error stop => .error stop
    | .cluster letters =>
      match addCluster leadingFlags given letters with
      | .ok given => readLeading given rest
      | .error stop => .error stop

/-- The operands of a subcommand that are read already, in reverse, with one
    more. The path of a document is the first of them and cannot be empty. -/
def Subcommand.addOperand (sub : Subcommand) (read : List String) (text : String) :
    Except Stop (List String) :=
  if sub.arity ≤ read.length then .error (.fault (.unexpectedOperand text))
  else if sub.readsDocument && read.isEmpty && text.isEmpty then .error (.fault .emptyPath)
  else .ok (text :: read)

/-- The arguments behind a subcommand that are operands whatever they look
    like. The operands already read come in reverse. -/
def readOperands (sub : Subcommand) (read : List String) :
    List String → Except Stop (List String)
  | [] => .ok read.reverse
  | text :: rest =>
    match sub.addOperand read text with
    | .ok read => readOperands sub read rest
    | .error stop => .error stop

/-- The arguments behind a subcommand: the flags among them, and the operands,
    those already read in reverse. -/
def readTrailing (sub : Subcommand) (given : List Flag) (read : List String) :
    List String → Except Stop (List Flag × List String)
  | [] => .ok (given, read.reverse)
  | text :: rest =>
    match Argument.ofText text with
    | .doubleDash => (readOperands sub read rest).map (given, ·)
    | .operand text =>
      match sub.addOperand read text with
      | .ok read => readTrailing sub given read rest
      | .error stop => .error stop
    | .long name value =>
      match addLong sub.flags given name value with
      | .ok given => readTrailing sub given read rest
      | .error stop => .error stop
    | .cluster letters =>
      match addCluster sub.flags given letters with
      | .ok given => readTrailing sub given read rest
      | .error stop => .error stop

/-- What a subcommand asks for with its flags and operands. -/
def Subcommand.request (sub : Subcommand) (given : List Flag) (operands : List String) :
    Except Stop Request :=
  match sub, operands with
  | parse, [selector] => .ok (.parse selector (given.contains .asJson))
  | query, [document, selector] =>
    .ok (.query document selector (given.contains .firstOnly))
  | tree, [document] => .ok (.tree document)
  | _, _ => .error (.fault .missingOperand)

/-- What is asked for by a name in the place of the subcommand. Help can be
    asked for here too, of the command or of a subcommand. -/
def readNamed (leading : List Flag) (name : String) (rest : List String) :
    Except Stop Arguments :=
  match Subcommand.ofName? name with
  | some sub => do
    let (trailing, operands) ← readTrailing sub [] [] rest
    let request ← sub.request trailing operands
    let given := leading ++ trailing
    .ok ⟨request, given.contains .verbose, given.contains .noColor⟩
  | none =>
    if name == "help" && rest.length ≤ 1 &&
        rest.all fun topic => topic == "help" || (Subcommand.ofName? topic).isSome then
      .error (.request .help)
    else .error (.fault (.unknownSubcommand name))

/-- What a list of arguments asks for. -/
def Arguments.read (texts : List String) : Except Usage Arguments :=
  let result : Except Stop Arguments := do
    let (leading, name, rest) ← readLeading [] texts
    readNamed leading name rest
  match result with
  | .ok arguments => .ok arguments
  | .error (.request request) => .ok ⟨request, false, false⟩
  | .error (.fault usage) => .error usage

end CommandLine

end DomQuery
