namespace PhraseGrammar.CommandLine

-- What the arguments ask for. Context entries come in the order given.
structure Request where
  files : List String
  start : Option String
  count : Option Nat
  seed : Option UInt64
  equalize : Bool
  context : List (String × String)
  settingsFile : Option String
  stats : Bool
  deriving DecidableEq, Repr

def Request.empty : Request := ⟨[], none, none, none, false, [], none, false⟩

inductive Stop where
  | help
  | version
  | refused
  deriving DecidableEq, Repr

inductive ValueOption where
  | start
  | count
  | seed
  | context
  | settings
  deriving DecidableEq, Repr

inductive Flag where
  | equalize
  | stats
  | help
  | version
  deriving DecidableEq, Repr

def longOption? : String → Option (ValueOption ⊕ Flag)
  | "start" => some (.inl .start)
  | "count" => some (.inl .count)
  | "seed" => some (.inl .seed)
  | "context" => some (.inl .context)
  | "config" => some (.inl .settings)
  | "equalize" => some (.inr .equalize)
  | "stats" => some (.inr .stats)
  | "help" => some (.inr .help)
  | "version" => some (.inr .version)
  | _ => none

def shortOption? : Char → Option (ValueOption ⊕ Flag)
  | 's' => some (.inl .start)
  | 'n' => some (.inl .count)
  | 'c' => some (.inl .context)
  | 'e' => some (.inr .equalize)
  | 'h' => some (.inr .help)
  | 'V' => some (.inr .version)
  | _ => none

def numberLimit : Nat := UInt64.size

-- Reads digits, with or without a plus sign.
def readNumber? (text : List Char) : Option Nat :=
  let digits := match text with
    | '+' :: digits => digits
    | digits => digits
  let value := digits.foldl (fun value digit => 10 * value + (digit.toNat - '0'.toNat)) 0
  if !digits.isEmpty && digits.all Char.isDigit && value < numberLimit then some value else none

-- Splits at the first sign of equality, which comes after a name.
def readPair? (text : List Char) : Option (String × String) :=
  let name := text.takeWhile (· != '=')
  match text.drop name.length with
  | '=' :: value =>
      if name.isEmpty then none else some (String.ofList name, String.ofList value)
  | _ => none

-- Puts a value into a request. Only context entries may come more than once.
def Request.setValue? (request : Request) (value : List Char) : ValueOption → Option Request
  | .start =>
      if request.start.isSome then none
      else some { request with start := some (String.ofList value) }
  | .count =>
      if request.count.isSome then none
      else (readNumber? value).map fun count => { request with count := some count }
  | .seed =>
      if request.seed.isSome then none
      else (readNumber? value).map fun seed => { request with seed := some (UInt64.ofNat seed) }
  | .context =>
      (readPair? value).map fun entry => { request with context := request.context ++ [entry] }
  | .settings =>
      if request.settingsFile.isSome || value.isEmpty then none
      else some { request with settingsFile := some (String.ofList value) }

def Request.setFlag (request : Request) : Flag → Except Stop Request
  | .equalize => if request.equalize then .error .refused else .ok { request with equalize := true }
  | .stats => if request.stats then .error .refused else .ok { request with stats := true }
  | .help => .error .help
  | .version => .error .version

def Request.addFile (request : Request) (file : String) : Except Stop Request :=
  if file = "" then .error .refused
  else .ok { request with files := request.files ++ [file] }

-- Where the value of an option comes from: the same argument or the next one.
inductive Pending where
  | done (request : Request)
  | needs (request : Request) (option : ValueOption)

def Request.attach (request : Request) (option : ValueOption) (value : List Char) :
    Except Stop Pending :=
  match request.setValue? value option with
  | some request => .ok (.done request)
  | none => .error .refused

def readLong (request : Request) (text : List Char) : Except Stop Pending :=
  let name := text.takeWhile (· != '=')
  match longOption? (String.ofList name), text.drop name.length with
  | some (.inl option), '=' :: value => request.attach option value
  | some (.inl option), _ => .ok (.needs request option)
  | some (.inr flag), [] => (request.setFlag flag).map .done
  | _, _ => .error .refused

-- Reads the letters of an argument with one hyphen. What follows the letter of
-- an option that takes a value is the value, with or without a sign of
-- equality in between.
def readShort (request : Request) : List Char → Except Stop Pending
  | [] => .ok (.done request)
  | letter :: rest =>
      match shortOption? letter, rest with
      | some (.inl option), [] => .ok (.needs request option)
      | some (.inl option), '=' :: value => request.attach option value
      | some (.inl option), value => request.attach option value
      | some (.inr flag), rest =>
          match request.setFlag flag with
          | .ok request => readShort request rest
          | .error stop => .error stop
      | none, _ => .error .refused

-- A value of its own does not start with a hyphen, unless it is nothing else.
def isValue : List Char → Bool
  | ['-'] => true
  | '-' :: _ => false
  | _ => true

-- Reads arguments in order. After two hyphens alone come files only.
def readInto (request : Request) (option : Option ValueOption) :
    List String → Except Stop Request
  | [] => if option.isSome then .error .refused else .ok request
  | argument :: rest => do
      match option, argument.toList with
      | some option, value =>
          if isValue value then
            match request.setValue? value option with
            | some request => readInto request none rest
            | none => .error .refused
          else .error .refused
      | none, ['-', '-'] => rest.foldlM Request.addFile request
      | none, ['-'] => readInto (← request.addFile argument) none rest
      | none, '-' :: '-' :: text =>
          match ← readLong request text with
          | .done request => readInto request none rest
          | .needs request option => readInto request (some option) rest
      | none, '-' :: text =>
          match ← readShort request text with
          | .done request => readInto request none rest
          | .needs request option => readInto request (some option) rest
      | none, _ => readInto (← request.addFile argument) none rest

def readArguments (arguments : List String) : Except Stop Request := do
  let request ← readInto Request.empty none arguments
  if request.files.isEmpty then .error .refused else .ok request

end PhraseGrammar.CommandLine
