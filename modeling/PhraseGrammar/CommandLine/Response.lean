import PhraseGrammar.CommandLine.Arguments
import PhraseGrammar.Decimal.Shortest
import PhraseGrammar.Generator
import PhraseGrammar.Regex.Replacement

namespace PhraseGrammar.CommandLine

inductive FileError where
  | missing
  | directory
  | notText
  | other (reason : String)
  deriving DecidableEq, Repr

def FileError.message : FileError → String
  | missing => "No such file or directory (os error 2)"
  | directory => "Is a directory (os error 21)"
  | notText => "stream did not contain valid UTF-8"
  | other reason => reason

inductive RunError where
  | file (error : FileError)
  | settings
  | invalidGrammar (diagnostics : List Diagnostic)
  | aborted (abort : Abort)
  deriving DecidableEq, Repr

def RunError.message : RunError → String
  | file error => "IO error: " ++ error.message
  | settings => "Config error: malformed settings"
  | invalidGrammar diagnostics => invalidGrammarMessage diagnostics
  | aborted abort => abort.message

-- What the program answers: its exit code, its output, and what it says about
-- an error.
structure Response where
  exitCode : Nat
  output : String
  error : Option String
  deriving DecidableEq, Repr

abbrev Files := String → Except FileError ByteArray

def readText (files : Files) (path : String) : Except RunError String :=
  match files path with
  | .error error => .error (.file error)
  | .ok bytes =>
      match String.fromUTF8? bytes with
      | some text => .ok text
      | none => .error (.file .notText)

-- The settings of a request. Its own options count more than the file.
def settings (files : Files) (request : Request) : Except RunError Settings := do
  let settings ←
    match request.settingsFile with
    | none => pure Settings.default
    | some path =>
        match Settings.ofJson? (← readText files path) with
        | some settings => pure settings
        | none => throw .settings
  return {
    startSymbol := request.start.getD settings.startSymbol
    equalize := settings.equalize || request.equalize
    seed := request.seed <|> settings.seed }

-- The documents of some files, merged in order.
def readDocument (files : Files) :
    (document : Document Float) → List String → Except RunError (Document Float)
  | document, [] => .ok document
  | document, path :: rest => do
      let text ← readText files path
      readDocument files (document.merge (Document.read Regex.compiler text)).2 rest

def line (text : String) : String := text ++ "\n"

def statistics (generator : Generator Float) : String :=
  line ("syntaxes: " ++ toString generator.ensemble.members.length) ++
    line ("weight: " ++ Decimal.text generator.ensemble.weight) ++
    line ("combinations: " ++ toString generator.ensemble.combinations)

def phrases (context : Context) : Nat → Generator Float → String → Except RunError String
  | 0, _, output => .ok output
  | count + 1, generator, output =>
      match generator.generate context with
      | (.ok phrase, generator) => phrases context count generator (output ++ line phrase)
      | (.error abort, _) => .error (.aborted abort)

-- Carries out a request. Without a seed, numbers are drawn from `entropy`.
def run (files : Files) (entropy : Source Float) (request : Request) : Except RunError String := do
  let settings ← settings files request
  let document ← readDocument files Document.empty request.files
  if document.hasErrors then throw (.invalidGrammar document.diagnostics)
  let generator := Generator.ofSettings settings entropy
  match generator.add document IdentitySupply.first with
  | (.error reports, _, _) => throw (.invalidGrammar reports)
  | (.ok _, generator, _) =>
      if request.stats then return statistics generator
      phrases (Context.ofList request.context) (request.count.getD 1) generator ""

def helpText : String :=
  line "A weighted random phrase generator driven by a small grammar language" ++ line "" ++
  line "Usage: phrase-gen [OPTIONS] <GRAMMAR_FILES>..." ++ line "" ++
  line "Arguments:" ++
  line "  <GRAMMAR_FILES>...  Grammar files, merged in order" ++ line "" ++
  line "Options:" ++
  line "  -s, --start <START>        The nonterminal to start from" ++
  line "  -n, --count <COUNT>        Number of phrases to generate [default: 1]" ++
  line "      --seed <SEED>          Seed for reproducible output" ++
  line "  -e, --equalize             Select every alternative with equal chance" ++
  line "  -c, --context <KEY=VALUE>  External context entry, used for undefined nonterminals" ++
  line ("      --config <CONFIG>      JSON generator configuration; " ++
    "command line flags take precedence") ++
  line ("      --stats                Print the syntax count, weight and combination count " ++
    "instead of phrases") ++
  line "  -h, --help                 Print help" ++
  line "  -V, --version              Print version"

def versionText : String := line "phrase-gen 0.1.0"

def respond (files : Files) (entropy : Source Float) (arguments : List String) : Response :=
  match readArguments arguments with
  | .error .help => ⟨0, helpText, none⟩
  | .error .version => ⟨0, versionText, none⟩
  | .error .refused => ⟨2, "", none⟩
  | .ok request =>
      match run files entropy request with
      | .ok output => ⟨0, output, none⟩
      | .error error => ⟨1, "", some ("error: " ++ error.message)⟩

def namedFiles (arguments : List String) : List String :=
  match readArguments arguments with
  | .ok request => request.settingsFile.toList ++ request.files
  | .error _ => []

end PhraseGrammar.CommandLine
