import MetaZenith.TokenIdScanner
import MetaZenith.Transducer

/-! The streaming parser engine: scanner, lexer and state machine, as `feed` and `finish` run
them. -/

namespace MetaZenith.ParserEngine

open Transducer

inductive EventType where
  | textChunk | reasoningStart | reasoningChunk | reasoningEnd
  | toolCallStart | toolName | argValueChunk | toolCallEnd
  deriving DecidableEq, Repr

structure SemanticEvent where
  type : EventType
  value : Text := []
  toolIndex : ℤ := -1
  deriving DecidableEq, Repr

inductive ParserState where
  | content | reasoning | messageHeader | toolPreamble | toolName | toolArgs | toolBetween
  deriving DecidableEq, Repr

structure Transition where
  nextState : ParserState
  events : List EventType := []
  skipInTokenIdMode : Bool := false

structure ParserEngineConfig where
  terminals : List (String × Text)
  tokenIdTerminals : List (String × Text) := []
  transitions : List ((ParserState × String) × Transition)
  contentEvents : List (ParserState × EventType) :=
    [(.content,.textChunk),(.reasoning,.reasoningChunk),(.toolName,.toolName),
      (.toolArgs,.argValueChunk)]
  initialState : ParserState := .content
  toolArgsJson : Bool := true
  preserveTokens : List Text := []

/-- What the engine asks a tokenizer: `get_vocab`, the special tokens with their ids where it has
such lists, and `decode` of one token. -/
structure Tokenizer where
  vocab : List (Text × ℕ)
  specialTokens : Option (List (Text × ℕ))
  decode : ℕ → Text

def setKey {κ β : Type*} [DecidableEq κ] (d : List (κ × β)) (k : κ) (v : β) : List (κ × β) :=
  (k,v) :: d.filter fun e => e.1 ≠ k

def dropTokens (config : ParserEngineConfig) (tokenizer : Tokenizer) : List (Text × ℕ) :=
  (tokenizer.specialTokens.getD []).filter fun e =>
    e.1 ∉ config.tokenIdTerminals.map Prod.snd ++ config.terminals.map Prod.snd ++
      config.preserveTokens

structure StreamingParserEngine where
  config : ParserEngineConfig
  resolvedTokenIds : List (ℕ × String)
  hasDrops : Bool
  lexerShape : LexerShape
  decode : ℕ → Text
  skipToolParsing : Bool

variable (engine : StreamingParserEngine) (everHadTokenIds : Bool)

namespace StreamingParserEngine

def init (config : ParserEngineConfig) (tokenizer : Tokenizer) (patternLength : Text → ℕ)
    (skipToolParsing : Bool) : StreamingParserEngine :=
  let configured := config.tokenIdTerminals.foldl (fun d e =>
    match tokenizer.vocab.lookup e.2 with
    | some tid => setKey d tid e.1
    | none => d) []
  let drops := dropTokens config tokenizer
  { config := config
    resolvedTokenIds := drops.foldl (fun d e => setKey d e.2 dropTerminal) configured
    hasDrops := !drops.isEmpty
    lexerShape := .ofTerminals patternLength
      (config.terminals ++ (drops.map Prod.fst).dedup.map fun text => (dropTerminal,text))
    decode := tokenizer.decode
    skipToolParsing := skipToolParsing }

def scanner : TokenIDScanner :=
  ⟨engine.resolvedTokenIds,engine.decode⟩

def tokenIdTerminalNames : List String :=
  engine.resolvedTokenIds.map Prod.snd

end StreamingParserEngine

def ParserState.isTool : ParserState → Bool
  | .toolPreamble | .toolName | .toolArgs | .toolBetween => true
  | _ => false

def StreamingParserEngine.toolTerminals : List String :=
  (engine.config.transitions.filter fun e => e.2.nextState.isTool || e.1.1.isTool).map (·.1.2)

structure Machine where
  state : ParserState
  toolIndex : ℤ := -1
  messageHeaderBuffer : Text := []
  argsBuffer : Text := []
  argsSafeEnd : ℕ := 0
  argsBraceDepth : ℕ := 0
  argsInString : Bool := false
  argsEscapeNext : Bool := false
  deriving DecidableEq, Repr

namespace Machine

def event (m : Machine) (type : EventType) (value : Text := []) : SemanticEvent :=
  ⟨type,value,m.toolIndex⟩

def flushSafeArgs (m : Machine) : Machine × List SemanticEvent :=
  if m.argsSafeEnd = 0 then (m,[])
  else ({ m with argsBuffer := m.argsBuffer.drop m.argsSafeEnd, argsSafeEnd := 0 },
    [m.event .argValueChunk (m.argsBuffer.take m.argsSafeEnd)])

def safe (m : Machine) : Machine := { m with argsSafeEnd := m.argsBuffer.length }

def feedArgsChar (m : Machine) (ch : Char) : Machine × List SemanticEvent :=
  let m := { m with argsBuffer := m.argsBuffer ++ [ch] }
  if m.argsEscapeNext then ({ m with argsEscapeNext := false }).safe.flushSafeArgs
  else if m.argsInString then
    if ch = '\\' then ({ m with argsEscapeNext := true }).safe.flushSafeArgs
    else if ch = '"' then ({ m with argsInString := false }).safe.flushSafeArgs
    else m.safe.flushSafeArgs
  else if ch = '"' then ({ m with argsInString := true }).safe.flushSafeArgs
  else if ch = '{' ∨ ch = '[' then
    ({ m with argsBraceDepth := m.argsBraceDepth+1 }).safe.flushSafeArgs
  else if ch = '}' ∨ ch = ']' then
    let m := { m with argsBraceDepth := m.argsBraceDepth-1 }
    if m.argsBraceDepth = 0 then (m,[]) else m.safe.flushSafeArgs
  else m.safe.flushSafeArgs

def feedArgsText (text : Text) (m : Machine) : Machine × List SemanticEvent :=
  transduce (fun ch m => m.feedArgsChar ch) text m

end Machine

namespace StreamingParserEngine

def contentType (state : ParserState) : Option EventType :=
  engine.config.contentEvents.lookup state

def emitForState (text : Text) (m : Machine) : Machine × List SemanticEvent :=
  if m.state = .messageHeader then
    ({ m with messageHeaderBuffer := m.messageHeaderBuffer ++ text },[])
  else if m.state = .toolArgs then
    if engine.config.toolArgsJson then m.feedArgsText text else (m,[m.event .argValueChunk text])
  else
    match engine.contentType m.state with
    | some type => (m,[m.event type text])
    | none => (m,[])

def onContent (text : Text) (m : Machine) : Machine × List SemanticEvent :=
  if text.isEmpty then (m,[]) else engine.emitForState text m

def transitionEvents (header : Option Text) (value : Text) :
    List EventType → Machine → Machine × List SemanticEvent :=
  transduce fun type m =>
    let m := if type = .toolCallStart then { m with toolIndex := m.toolIndex+1 } else m
    let value := match header with
      | some header => if type = .textChunk then header else value
      | none => value
    if type = .textChunk ∧ value = [] then (m,[]) else (m,[m.event type value])

def leaveArgs (next : ParserState) (m : Machine) : Machine × List SemanticEvent :=
  if m.state = .toolArgs ∧ next ≠ .toolArgs ∧ m.argsBuffer ≠ [] then
    ({ m with argsBuffer := [] },[m.event .argValueChunk m.argsBuffer])
  else (m,[])

def takeHeader (m : Machine) : Option Text × Machine :=
  if m.state = .messageHeader then (some m.messageHeaderBuffer,{ m with messageHeaderBuffer := [] })
  else (none,m)

def enterArgs (m : Machine) : Machine :=
  if m.state = .toolArgs then
    { m with argsBraceDepth := 0, argsInString := false, argsEscapeNext := false, argsSafeEnd := 0 }
  else m

def applyTransition (transition : Transition) (value : Text) (m : Machine) :
    Machine × List SemanticEvent :=
  let r := leaveArgs transition.nextState m
  let h := takeHeader r.1
  let r' := transitionEvents h.1 value transition.events { h.2 with state := transition.nextState }
  (enterArgs r'.1,r.2 ++ r'.2)

def skipTool (transition : Transition) (value : Text) (m : Machine) :
    Machine × List SemanticEvent :=
  if m.state = .messageHeader then
    ({ m with state := .content, messageHeaderBuffer := [] },[m.event .textChunk value])
  else if .reasoningEnd ∈ transition.events then
    ({ m with state := .content },[m.event .reasoningEnd value,m.event .textChunk value])
  else
    match engine.contentType m.state with
    | some type => (m,[m.event type value])
    | none => (m,[])

def onTerminal (terminal : String) (value : Text) (m : Machine) : Machine × List SemanticEvent :=
  match engine.config.transitions.lookup (m.state,terminal) with
  | none =>
    if engine.hasDrops && terminal == dropTerminal then (m,[]) else engine.emitForState value m
  | some transition =>
    if engine.skipToolParsing && decide (terminal ∈ engine.toolTerminals) then
      engine.skipTool transition value m
    else if transition.skipInTokenIdMode && everHadTokenIds then engine.emitForState value m
    else applyTransition transition value m

/-- One token of `_process_lex_tokens`: once there have been token ids, a terminal that has one
counts only as such. -/
def processLexToken (tok : LexToken) (m : Machine) : Machine × List SemanticEvent :=
  if tok.terminal = contentTerminal ∨
      (everHadTokenIds = true ∧ tok.terminal ∈ engine.tokenIdTerminalNames) then
    engine.onContent tok.value m
  else engine.onTerminal everHadTokenIds tok.terminal tok.value m

def processLexTokens (tokens : List LexToken) (m : Machine) : Machine × List SemanticEvent :=
  transduce (engine.processLexToken everHadTokenIds) tokens m

structure State where
  machine : Machine
  buffer : Text := []
  deferred : Deferred := {}
  everHadTokenIds : Bool := false
  deriving DecidableEq, Repr

def initialState (engine : StreamingParserEngine) (state : Option ParserState) : State :=
  { machine := { state := state.getD engine.config.initialState } }

structure Core where
  machine : Machine
  buffer : Text
  deriving DecidableEq, Repr

def processScannerItem (item : LexerInput) (c : Core) : Core × List SemanticEvent :=
  match item with
  | .preLexed t =>
    let flushed := engine.lexerShape.flush c.buffer
    let r := andThen (engine.processLexTokens everHadTokenIds flushed.1 c.machine)
      (engine.onTerminal everHadTokenIds t.terminal t.text)
    (⟨r.1,flushed.2⟩,r.2)
  | .textChunk text =>
    let fed := engine.lexerShape.feed c.buffer text
    let r := engine.processLexTokens everHadTokenIds fed.1 c.machine
    (⟨r.1,fed.2⟩,r.2)

def processScannerItems (items : List LexerInput) (c : Core) : Core × List SemanticEvent :=
  transduce (engine.processScannerItem everHadTokenIds) items c

def processItems (items : List LexerInput) (c : Core) : Core × List SemanticEvent :=
  match items with
  | [.textChunk text] =>
    let fed := engine.lexerShape.feed c.buffer text
    let r := match fed.1 with
      | [tok] =>
        if tok.terminal = contentTerminal then engine.emitForState tok.value c.machine
        else engine.processLexTokens everHadTokenIds fed.1 c.machine
      | tokens => engine.processLexTokens everHadTokenIds tokens c.machine
    (⟨r.1,fed.2⟩,r.2)
  | items => engine.processScannerItems everHadTokenIds items c

def isPlain (s : State) (deltaText : Text) (deltaTokenIds : List ℕ) : Bool :=
  !deltaText.isEmpty && s.buffer.isEmpty && s.deferred.terminals.isEmpty &&
    !engine.lexerShape.hasPotential deltaText && !engine.scanner.hasSpecial deltaTokenIds

def feed (s : State) (deltaText : Text) (deltaTokenIds : List ℕ) : State × List SemanticEvent :=
  let ever := s.everHadTokenIds || !deltaTokenIds.isEmpty
  if engine.isPlain s deltaText deltaTokenIds then
    let r := engine.emitForState deltaText s.machine
    ({ s with machine := r.1, everHadTokenIds := ever },r.2)
  else
    let scanned := engine.scanner.scan s.deferred deltaText deltaTokenIds
    let r := engine.processItems ever scanned.1 ⟨s.machine,s.buffer⟩
    (⟨r.1.machine,r.1.buffer,scanned.2,ever⟩,r.2)

def finishMachine (m : Machine) : List SemanticEvent :=
  let args := if m.argsBuffer = [] then [] else [m.event .argValueChunk m.argsBuffer]
  let last := match m.state with
    | .toolPreamble | .toolArgs | .toolName | .toolBetween =>
      if 0 ≤ m.toolIndex then [m.event .toolCallEnd] else []
    | .reasoning => [m.event .reasoningEnd]
    | .messageHeader =>
      if m.messageHeaderBuffer = [] then [] else [m.event .textChunk m.messageHeaderBuffer]
    | .content => []
  args ++ last

def finish (s : State) : List SemanticEvent :=
  let r := engine.processScannerItems s.everHadTokenIds (flushPending s.deferred)
    ⟨s.machine,s.buffer⟩
  let flushed := engine.lexerShape.flush r.1.buffer
  let r' := engine.processLexTokens s.everHadTokenIds flushed.1 r.1.machine
  r.2 ++ r'.2 ++ finishMachine r'.1

/-- The calls of a whole delivery: `feed` for each group with its text, then `finish`. -/
def deliver (engine : StreamingParserEngine) (s : State) : List (List ℕ × Text) → List SemanticEvent
  | [] => engine.finish s
  | step :: steps =>
    (engine.feed s step.2 step.1).2 ++ engine.deliver (engine.feed s step.2 step.1).1 steps

/-- The events a configuration sends in pieces: chunks of text, reasoning and arguments, names, and
whatever else it sends for content. -/
def isChunk (type : EventType) : Bool :=
  type = .textChunk || type = .reasoningChunk || type = .argValueChunk || type = .toolName ||
    decide (type ∈ engine.config.contentEvents.map Prod.snd)

def joinEvents (e e' : SemanticEvent) : Option SemanticEvent :=
  if engine.isChunk e.type && decide (e.type = e'.type) && decide (e.toolIndex = e'.toolIndex) then
    some { e with value := e.value ++ e'.value }
  else none

def mergeEvents (events : List SemanticEvent) :
    List SemanticEvent := coalesce engine.joinEvents events

end StreamingParserEngine

end MetaZenith.ParserEngine
