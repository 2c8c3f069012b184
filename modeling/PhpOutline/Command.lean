import PhpOutline.Report

/-!
# The command

The command inspects some files and prints a report on each. It is a function of its arguments and
of what its files hold.

## Main definitions

* `Command` and `Command.ofArguments?`.
* `FileContent`: what a file holds.
* `Command.run`: what is printed, and whether something failed.
-/

namespace PhpOutline

/-- What is done with each file. -/
inductive Action where
  /-- The names of the declarations. -/
  | list
  /-- Every declaration with its members and parameters. -/
  | describe
  /-- The lexical faults. -/
  | check
deriving DecidableEq, Repr

/-- A call of the command. -/
structure Command where
  action : Action
  files : List String
  /-- The files are code from their first character on. -/
  code : Bool
  /-- A file with a lexical fault is refused. -/
  strict : Bool
deriving DecidableEq, Repr

/-- What a file holds. -/
inductive FileContent where
  /-- The file cannot be read, for a reason. -/
  | unreadable (reason : String)
  | text (source : Text)
deriving DecidableEq, Repr

namespace FileContent

/-- There is no such file. -/
def missing : FileContent := unreadable "No such file or directory (os error 2)"

/-- The content of a file with the given bytes. -/
def ofBytes (bytes : ByteArray) : FileContent :=
  match String.fromUTF8? bytes with
  | some s => text s.toList
  | none => unreadable "stream did not contain valid UTF-8"

end FileContent

namespace Command

/-- The action that a word asks for. -/
def action? : String → Option Action
  | "list" => some .list
  | "describe" => some .describe
  | "check" => some .check
  | _ => none

/-- Reads arguments: an action, at least one file, and options anywhere among them. -/
def ofArguments? (args : List String) : Option Command :=
  match args.filter fun a => !(a == "--code" || a == "--strict") with
  | word :: file :: files =>
    (action? word).map fun action =>
      ⟨action, file :: files, args.contains "--code", args.contains "--strict"⟩
  | _ => none

/-- What the command prints. -/
structure Output where
  out : List String := []
  err : List String := []
  failed : Bool := false
deriving DecidableEq, Repr

/-- One output behind another. -/
def Output.append (a b : Output) : Output := ⟨a.out ++ b.out, a.err ++ b.err, a.failed || b.failed⟩

/-- A complaint about a file. -/
def complaint (name text : String) : String := name ++ ": " ++ text

/-- Reports the lexical faults of a file, or that there are none. -/
def check (name : String) (f : SourceFile) : Output :=
  if f.diagnostics.isEmpty then { err := [complaint name "ok"] }
  else { err := f.diagnostics.map fun d => complaint name d.message, failed := true }

/-- Prints a report, and the error that cut it short. -/
def print (name : String) (r : Report) : Output :=
  ⟨r.lines, r.error.toList.map fun e => complaint name e.message, r.error.isSome⟩

/-- The output for a file that has been read. -/
def runSource (c : Command) (name : String) (f : SourceFile) : Output :=
  match c.strict, f.fault? with
  | true, some e => { err := [complaint name e.message], failed := true }
  | _, _ =>
    match c.action with
    | .list => print name (.list f)
    | .describe => print name (.describe f)
    | .check => check name f

/-- The output for one file. -/
def runFile (c : Command) (name : String) : FileContent → Output
  | .unreadable reason => { err := [complaint name reason], failed := true }
  | .text source => c.runSource name (.ofSource { startInCode := c.code } source)

/-- The output for all files, in order. -/
def run (c : Command) (content : String → FileContent) : Output :=
  (c.files.map fun name => c.runFile name (content name)).foldl Output.append {}

end Command

end PhpOutline
