import DomQuery.CommandLine.Arguments
import DomQuery.Document.Basic
import DomQuery.Json.Printer
import DomQuery.Report.Caret
import DomQuery.Report.Dump
import DomQuery.Report.Path
import DomQuery.Selector.Json
import DomQuery.Selector.Parser
import DomQuery.Selector.Printer
import DomQuery.Selector.Query

/-!
# The Command

What the command answers: an exit code and what is written on either stream.

The answer is a function of the request and of the contents of the document that
the request names, so a run can be reasoned about without a file system. A
selector is read before the document is looked at. A fault in it is therefore
reported alike whatever the document holds, and nothing is written on the first
stream unless both are sound.

A query that finds nothing fails, in the manner of a search in files: the exit
code is zero exactly if something was written on the first stream.

## Main definitions

* `ReadError`: Why a file cannot be read.
* `Contents`: The bytes of a file, or why there are none.
* `Outcome`: The answer.
* `run`: The answer to a list of arguments.
-/

namespace DomQuery

namespace CommandLine

/-- Why a file cannot be read. -/
inductive ReadError where
  | notFound
  | permissionDenied
  /-- The path leads to a directory. -/
  | isDirectory
  /-- The path leads on from what is no directory. -/
  | notDirectory
  /-- The path, or a name on it, is longer than the system takes. -/
  | nameTooLong
  | other (reason : String)
  deriving DecidableEq, Repr

/-- The wording of a failure to read. -/
def ReadError.message : ReadError → String
  | notFound => "No such file or directory (os error 2)"
  | permissionDenied => "Permission denied (os error 13)"
  | isDirectory => "Is a directory (os error 21)"
  | notDirectory => "Not a directory (os error 20)"
  | nameTooLong => "File name too long (os error 36)"
  | other reason => reason

/-- The bytes of a file, or why there are none. -/
abbrev Contents := Except ReadError ByteArray

/-- An exit code and what is written on either stream. -/
structure Outcome where
  code : Nat
  stdout : String
  stderr : String
  deriving DecidableEq, Repr

/-- Why there is no tree for a path. -/
inductive LoadFailure where
  | unreadable (error : ReadError)
  | notUtf8
  | unsound (error : Document.LoadError)
  deriving DecidableEq, Repr

/-- The wording of a failure to load the document at a path. -/
def LoadFailure.message (path : String) : LoadFailure → String
  | unreadable error => "failed to read document " ++ path ++ ": " ++ error.message
  | notUtf8 => "failed to read document " ++ path ++ ": stream did not contain valid UTF-8"
  | unsound error => path ++ " is not a valid JSON document: " ++ error.message

/-- The tree of the contents of a file. -/
def loadTree (contents : Contents) : Except LoadFailure Tree :=
  match contents with
  | .error error => .error (.unreadable error)
  | .ok bytes =>
    match String.fromUTF8? bytes with
    | none => .error .notUtf8
    | some text => (Document.load text).mapError .unsound

/-- A failure with a message. -/
def failure (p : Palette) (above message : String) : Outcome :=
  ⟨1, "", above ++ String.ofList (p.error "error:".toList) ++ " " ++ message ++ "\n"⟩

/-- The answer to a selector that is none: where it fails, and why. -/
def syntaxFailure (p : Palette) (selector : String) (e : SyntaxError) : Outcome :=
  failure p (e.rendered selector p ++ "\n") ("invalid selector: " ++ e.message)

/-- The spelling of a selector, or its tree. -/
def runParse (p : Palette) (selector : String) (asJson : Bool) : Outcome :=
  match SelectorList.parse selector with
  | .error e => syntaxFailure p selector e
  | .ok list =>
    ⟨0, (if asJson then list.toJson.indented else toString list) ++ "\n", ""⟩

/-- The paths of nodes, a line for each. -/
def pathLines (p : Palette) (t : Tree) (found : List NodeId) : String :=
  String.ofList (found.flatMap fun n => t.pathChars p n ++ ['\n'])

/-- The matches of a list in a tree, or the first of them. -/
def matchesIn (t : Tree) (list : SelectorList) (firstOnly : Bool) : List NodeId :=
  if firstOnly then (list.queryFirst? t Tree.root).toList else list.queryAll t Tree.root

/-- The paths of the matches of a selector in a document. -/
def runQuery (p : Palette) (contents : Contents) (path selector : String) (firstOnly : Bool) :
    Outcome :=
  match SelectorList.parse selector with
  | .error e => syntaxFailure p selector e
  | .ok list =>
    match loadTree contents with
    | .error e => failure p "" (e.message path)
    | .ok t =>
      let found := matchesIn t list firstOnly
      ⟨if found.isEmpty then 1 else 0, pathLines p t found, ""⟩

/-- The dump of a document. -/
def runTree (p : Palette) (contents : Contents) (path : String) : Outcome :=
  match loadTree contents with
  | .error e => failure p "" (e.message path)
  | .ok t => ⟨0, t.dump p Tree.root, ""⟩

/-- The name and number that the command answers with when asked for its
    version. -/
def versionText : String := "sift 0.1.0\n"

/-- The text that the command answers with when asked for help. -/
def helpText : String :=
  "Usage: sift [-v|--verbose] [--no-color] COMMAND\n\n" ++
  "Commands:\n" ++
  "  parse [--json] SELECTOR            print the canonical form of a selector\n" ++
  "  query [--first] DOCUMENT SELECTOR  print the path of every match\n" ++
  "  tree DOCUMENT                      print the tree of a document\n"

/-- The path of the document that a request names. -/
def Request.document? : Request → Option String
  | query document _ _ => some document
  | tree document => some document
  | _ => none

/-- The answer to a request, given the contents of the document it names. -/
def answer (p : Palette) (contents : Contents) : Request → Outcome
  | .parse selector asJson => runParse p selector asJson
  | .query path selector firstOnly => runQuery p contents path selector firstOnly
  | .tree path => runTree p contents path
  | .version => ⟨0, versionText, ""⟩
  | .help => ⟨0, helpText, ""⟩

/-- The answer to arguments that ask for nothing. -/
def usageFailure (usage : Usage) : Outcome :=
  ⟨2, "", "error: " ++ usage.message ++ "\n\n" ++ helpText⟩

/-- The answer to a list of arguments, given the files. Color is for terminals,
    and only where it was not turned off. -/
def run (files : String → Contents) (terminal : Bool) (texts : List String) : Outcome :=
  match Arguments.read texts with
  | .error usage => usageFailure usage
  | .ok arguments =>
    let contents := match arguments.request.document? with
      | some path => files path
      | none => .error .notFound
    answer ⟨terminal && !arguments.noColor⟩ contents arguments.request

end CommandLine

end DomQuery
