/-
The arguments of the two programs.

Options of a program come before the name of a command, options of the
command behind it.  The value of an option may be attached or stand in
the next argument, where it must not look like an option.  A lone `--`
ends the options.  Reading stops at the first argument that asks for
help or for the version.  A value in an argument of its own is looked at
only when the next option or the end of the arguments is reached.
-/
import DocStamp.Path.Basic

namespace DocStamp.Command

inductive Program where
  /-- Builds and shows documentation. -/
  | docs
  /-- Preprocesses books. -/
  | book
deriving DecidableEq, Repr

/-- What a program is asked to do. -/
inductive Request where
  | build (docsDir : Path) (out : Option Path)
  | render (docsDir file : Path)
  | showPaths (docsDir : Path)
  | showConfig (docsDir : Path)
  | preprocess
  | supports (renderer : String)
  | version
  | help
deriving DecidableEq, Repr

/-! ## Options -/

/-- An option with a value. -/
structure Flag where
  short : Char
  long : String
deriving DecidableEq, Repr

/-- How an argument sets an option. -/
inductive Setting where
  /-- The value is part of the argument. -/
  | attached (value : String)
  /-- The value is the next argument. -/
  | next
deriving DecidableEq, Repr

/-- Does the argument look like an option?  A lone dash does not. -/
def looksLikeOption (arg : String) : Bool := arg.toList.head? == some '-' && arg != "-"

/-- How the argument sets the option, if it does. -/
def Flag.setBy? (f : Flag) (arg : String) : Option Setting :=
  match arg.toList with
  | '-' :: '-' :: cs =>
      let long := f.long.toList
      if cs = long then some .next
      else if (long ++ ['=']).isPrefixOf cs then
        some (.attached (String.ofList (cs.drop (long.length + 1))))
      else none
  | '-' :: c :: cs =>
      if c ≠ f.short then none
      else
        match cs with
        | [] => some .next
        | '=' :: value => some (.attached (String.ofList value))
        | value => some (.attached (String.ofList value))
  | _ => none

/-- Takes a path as the value of an option that is not set yet. -/
def setPath? (before : Option Path) (value : String) : Option Path :=
  if before.isSome || value == "" then none else some ⟨value⟩

/-- Does the argument ask for help?  A short one may have anything behind it. -/
def asksForHelp (arg : String) : Bool := arg == "--help" || ['-', 'h'].isPrefixOf arg.toList

/-- Does the argument ask for the version?  A short one may have anything behind it. -/
def asksForVersion (arg : String) : Bool :=
  arg == "--version" || ['-', 'V'].isPrefixOf arg.toList

/-! ## Commands and help -/

/-- The commands that may follow. -/
inductive Menu where
  /-- Those of the program for documentation. -/
  | docs
  /-- What can be shown. -/
  | views
  /-- Those of the preprocessor. -/
  | book
  /-- None. -/
  | leaf
deriving DecidableEq, Repr

/-- The commands that may follow a command; nothing if the menu does not have it.  A menu
that has commands also has `help`. -/
def Menu.enter? : Menu → String → Option Menu
  | .docs, "build" | .docs, "render" => some .leaf
  | .docs, "show" => some .views
  | .docs, "mdbook" => some .book
  | .views, "paths" | .views, "config" => some .leaf
  | .book, "supports" => some .leaf
  | .leaf, _ => none
  | _, "help" => some .leaf
  | _, _ => none

/-- Asks for help on the command that the names lead to. -/
def Menu.help (menu : Menu) (names : List String) : Option Request :=
  (names.foldlM Menu.enter? menu).map fun _ => .help

/-! ## Arguments of commands -/

/-- Arguments of a command that takes none. -/
def noArguments (request : Request) : List String → Option Request
  | [] => some request
  | ["--"] => some request
  | arg :: _ => if asksForHelp arg then some .help else none

/-- Arguments of a command that takes exactly one value; `make` checks it. -/
def oneArgument (make : String → Option Request) : Option String → List String → Option Request
  | none, [] => none
  | some value, [] => make value
  | none, ["--", value] => make value
  | some value, ["--"] => make value
  | value?, arg :: args =>
      if arg == "--" then none
      else if asksForHelp arg then if value?.all (make · |>.isSome) then some .help else none
      else if looksLikeOption arg || value?.isSome then none
      else oneArgument make (some arg) args

def outFlag : Flag := ⟨'o', "out"⟩

def docsDirFlag : Flag := ⟨'C', "docs-dir"⟩

/-- Arguments of `build`, with the output directory set so far. -/
def buildArguments (docsDir : Path) : Option Path → List String → Option Request
  | out, [] => some (.build docsDir out)
  | out, arg :: args =>
      if arg == "--" then if args.isEmpty then some (.build docsDir out) else none
      else if asksForHelp arg then some .help
      else
        match outFlag.setBy? arg, args with
        | some (.attached value), args => do buildArguments docsDir (some (← setPath? out value)) args
        | some .next, value :: args => do
            if looksLikeOption value then none
            else buildArguments docsDir (some (← setPath? out value)) args
        | _, _ => none

def supportsArguments : List String → Option Request :=
  oneArgument (fun renderer => some (.supports renderer)) none

def renderArguments (docsDir : Path) : List String → Option Request :=
  oneArgument (fun file => if file == "" then none else some (.render docsDir ⟨file⟩)) none

def showArguments (docsDir : Path) : List String → Option Request
  | "paths" :: args => noArguments (.showPaths docsDir) args
  | "config" :: args => noArguments (.showConfig docsDir) args
  | "help" :: args => Menu.views.help args
  | arg :: _ => if asksForHelp arg then some .help else none
  | [] => none

def preprocessArguments : List String → Option Request
  | "supports" :: args => supportsArguments args
  | "help" :: args => Menu.book.help args
  | args => noArguments .preprocess args

def command? (docsDir : Path) (name : String) (args : List String) : Option (Option Request) :=
  match name with
  | "build" => some (buildArguments docsDir none args)
  | "render" => some (renderArguments docsDir args)
  | "show" => some (showArguments docsDir args)
  | "mdbook" => some (preprocessArguments args)
  | "help" => some (Menu.docs.help args)
  | _ => none

/-! ## Arguments of programs -/

/-- The directory of documents as it is set so far. -/
structure DirSetting where
  /-- The directory, if it is set and has been looked at. -/
  dir : Option Path
  /-- The value that has not been looked at. -/
  waiting : Option String
deriving DecidableEq, Repr

/-- Looks at the value that waits. -/
def DirSetting.settle? (s : DirSetting) : Option (Option Path) :=
  match s.waiting with
  | none => some s.dir
  | some value => some <$> setPath? s.dir value

/-- Arguments of the program for documentation, with the directory set so far.  A command
gives help even if the directory cannot be used. -/
def docsArguments : DirSetting → List String → Option Request
  | _, [] => none
  | s, arg :: args =>
      let dir? := s.settle?
      match command? (dir?.join.getD ⟨"."⟩) arg args with
      | some request => if dir?.isSome || request = some .help then request else none
      | none => do
          let dir ← dir?
          if asksForVersion arg then some .version
          else if asksForHelp arg then some .help
          else
            match docsDirFlag.setBy? arg, args with
            | some (.attached value), args => docsArguments ⟨some (← setPath? dir value), none⟩ args
            | some .next, value :: args =>
                if looksLikeOption value then none else docsArguments ⟨dir, some value⟩ args
            | _, _ => none

def bookArguments : List String → Option Request
  | arg :: args => if asksForVersion arg then some .version else preprocessArguments (arg :: args)
  | [] => some .preprocess

/-- What a program is asked to do; nothing if the arguments are not understood. -/
def Request.parse? : Program → List String → Option Request
  | .docs => docsArguments ⟨none, none⟩
  | .book => bookArguments

end DocStamp.Command
