import Intcode.Text.Digit

/-! # Arguments

The arguments name a subcommand, `run` or `debug`, and one file; flags may stand before and after
the file. Short flags may be clustered, with an `=` after the first one or without, and a long flag
may be cut short where that leaves one choice. After `--` there are no more flags. An argument with
a hyphen in front is still an operand if it is a hyphen only, a negative number or has a space in
it. A cluster with an unknown flag in it is refused at once. Any other unknown flag is refused when
all arguments have been looked at, so a request for help that comes later is still answered. -/

namespace Intcode.CommandLine

/-- What the arguments ask for. -/
inductive Request
  | run (file : String) (trace print : Bool)
  | debug (file : String)
deriving DecidableEq, Repr

/-- Why nothing is run: help was asked for, or the arguments make no sense. -/
inductive Refusal
  | help
  | usage
deriving DecidableEq, Repr

def Refusal.exitStatus : Refusal → Nat
  | help => 0
  | usage => 2

inductive Flag
  | help | trace | print
deriving DecidableEq, Repr

/-- Flags by their names. -/
abbrev Flags := List (List Char × Flag)

def Flags.common : Flags := [("-h".toList, .help), ("--help".toList, .help)]

def Flags.ofRun : Flags :=
  Flags.common ++ [("-t".toList, .trace), ("--trace".toList, .trace), ("-p".toList, .print),
    ("--print".toList, .print)]

/-- What one argument is. An `unknown` flag is refused in the end, the last two at once: an
`ambiguous` one wherever it stands, an `invalid` one when it is looked at. -/
inductive Token
  | operand (text : List Char)
  | flags (fs : List Flag)
  | unknown
  | ambiguous
  | invalid
deriving DecidableEq, Repr

/-- The end of the flags. -/
def terminator : List Char := "--".toList

/-- One or more decimal digits. -/
def isDigits (cs : List Char) : Bool := !cs.isEmpty && cs.all fun c => (Text.digitValue? c).isSome

/-- A minus sign with an integer, or with a fraction after a point; a line feed may follow. -/
def isNegativeNumber : List Char → Bool
  | '-' :: cs =>
    let cs := if cs.getLast? = some '\n' then cs.dropLast else cs
    let (whole, rest) := cs.span (· != '.')
    match rest with
    | [] => isDigits whole
    | _ :: fraction => (whole.isEmpty || isDigits whole) && isDigits fraction
  | _ => false

/-- The flags that the letters of a cluster stand for. -/
def Flags.cluster (flags : Flags) (letters : List Char) : Token :=
  match letters.mapM fun c => flags.lookup ['-', c] with
  | some fs => .flags fs
  | none => .invalid

/-- An argument that starts like a flag and is none. -/
def unmatched (arg : List Char) : Token :=
  if isNegativeNumber arg || arg.contains ' ' then .operand arg else .unknown

/-- Classifies an argument. No flag takes a value: what follows the `=` behind a short flag is the
rest of its cluster, and a long flag with an `=` is invalid. -/
def Flags.classify (flags : Flags) (arg : List Char) : Token :=
  match arg with
  | '-' :: second :: tail =>
    let (name, value) := arg.span (· != '=')
    match flags.lookup arg, flags.lookup name with
    | some f, _ => .flags [f]
    | none, some _ =>
      if second = '-' || value.length ≤ 1 then .invalid else flags.cluster (second :: value.tail)
    | none, none =>
      if second = '-' then
        match flags.filter fun (long, _) => name.isPrefixOf long with
        | [] => unmatched arg
        | [(_, f)] => if value.isEmpty then .flags [f] else .invalid
        | _ => .ambiguous
      else if (flags.lookup ['-', second]).isSome then flags.cluster (second :: tail)
      else unmatched arg
  | _ => .operand arg

/-- What has been found among the arguments of a subcommand. -/
structure Found where
  file : Option (List Char) := none
  flags : List Flag := []
  stray : Bool := false

namespace Found

/-- The first operand is the file. -/
def operand (text : List Char) (found : Found) : Found :=
  match found.file with
  | none => { found with file := some text }
  | some _ => { found with stray := true }

/-- Looks at the arguments from left to right. `atFile` says whether the last one was the file: the
terminator has to stand next to it. -/
def collect (flags : Flags) (found : Found) (atFile : Bool) :
    List (List Char) → Except Refusal Found
  | [] => .ok found
  | arg :: rest =>
    if arg = terminator then
      .ok (rest.foldl (fun found text => found.operand text)
        { found with stray := found.stray || (found.file.isSome && !atFile) })
    else match flags.classify arg with
      | .operand text => (found.operand text).collect flags found.file.isNone rest
      | .flags fs =>
        if fs.contains .help then .error .help
        else collect flags { found with flags := found.flags ++ fs } false rest
      | .unknown => collect flags { found with stray := true } false rest
      | .ambiguous | .invalid => .error .usage

/-- The file and the flags, if nothing is missing and nothing is left over. -/
def check (found : Found) : Except Refusal (String × List Flag) :=
  match found.file with
  | some file => if found.stray then .error .usage else .ok (String.ofList file, found.flags)
  | none => .error .usage

end Found

/-- Reads the arguments of a subcommand. -/
def Flags.read (flags : Flags) (args : List (List Char)) : Except Refusal (String × List Flag) :=
  if (args.takeWhile (· != terminator)).any (flags.classify · = .ambiguous) then .error .usage
  else do (← Found.collect flags {} false args).check

/-- Reads the subcommand and its arguments. -/
def readCommand (stray : Bool) : List (List Char) → Except Refusal Request
  | [] => .error .usage
  | arg :: rest =>
    if arg = terminator then .error .usage
    else match Flags.common.classify arg with
      | .operand name => do
        let request ←
          if name = "run".toList then do
            let (file, fs) ← Flags.ofRun.read rest
            pure (Request.run file (fs.contains .trace) (fs.contains .print))
          else if name = "debug".toList then do
            let (file, _) ← Flags.common.read rest
            pure (Request.debug file)
          else throw .usage
        if stray then throw .usage
        return request
      | .flags fs => if fs.contains .help then .error .help else readCommand stray rest
      | .unknown => readCommand true rest
      | .ambiguous | .invalid => .error .usage

/-- What a command line asks for. -/
def parse (args : List String) : Except Refusal Request :=
  readCommand false (args.map String.toList)

end Intcode.CommandLine
