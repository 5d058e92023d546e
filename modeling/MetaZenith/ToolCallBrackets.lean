import MetaZenith.Qwen3Config

/-! The tool calls among the events of the Qwen3 format. -/

namespace MetaZenith.ParserEngine

open Transducer

structure ToolCalls where
  index : ℤ := -1
  isOpen : Bool := false
  deriving DecidableEq

/-- A call starts with the next index once the one before has ended; its name, its arguments and its
one end carry its index. -/
def ToolCalls.accept (c : ToolCalls) (e : SemanticEvent) : Option ToolCalls :=
  match e.type with
  | .toolCallStart => if !c.isOpen ∧ e.toolIndex = c.index+1 then some ⟨e.toolIndex,true⟩ else none
  | .toolName | .argValueChunk => if c.isOpen ∧ e.toolIndex = c.index then some c else none
  | .toolCallEnd => if c.isOpen ∧ e.toolIndex = c.index then some { c with isOpen := false } else none
  | _ => some c

def WellBracketed (events : List SemanticEvent) : Prop :=
  ∃ index, events.foldlM ToolCalls.accept {} = some ⟨index,false⟩

def ParserState.inCall : ParserState → Bool
  | .toolPreamble | .toolName | .toolArgs => true
  | _ => false

namespace Machine

def toolCalls (m : Machine) : ToolCalls := ⟨m.toolIndex,m.state.inCall⟩

/-- What the Qwen3 format never uses: a message header, and arguments held back as JSON. An open
call has an index. -/
structure Plain (m : Machine) : Prop where
  header : m.state ≠ .messageHeader
  args : m.argsBuffer = []
  index : m.state.isTool = true → 0 ≤ m.toolIndex
  started : -1 ≤ m.toolIndex

end Machine

variable (engine : StreamingParserEngine) (everHadTokenIds : Bool) (steps : List (List ℕ × Text))

namespace StreamingParserEngine

def Bracketed (r : Machine × List SemanticEvent) (m : Machine) : Prop :=
  Accepted ToolCalls.accept Machine.Plain Machine.toolCalls m.toolCalls r

def qwen3Engine (thinking : Bool) (tokenizer : Tokenizer) (patternLength : Text → ℕ) :
    StreamingParserEngine := init (qwen3Config thinking) tokenizer patternLength false

def flushed (s : State) : Machine × List SemanticEvent :=
  andThen (engine.processScannerItems s.everHadTokenIds (flushPending s.deferred)
    ⟨s.machine,s.buffer⟩) fun c =>
      engine.processLexTokens s.everHadTokenIds (engine.lexerShape.flush c.buffer).1 c.machine

def feedAll (s : State) : State × List SemanticEvent :=
  transduce (fun step s => engine.feed s step.2 step.1) steps s

theorem deliver_eq (s : State) : engine.deliver s steps =
      (andThen (andThen (engine.feedAll steps s) engine.flushed) fun m => (m,finishMachine m)).2 := by
  induction steps generalizing s with
  | nil => rfl
  | cons step steps ih =>
    rw [deliver, ih]
    exact (List.append_assoc ..).symm.trans (congrArg (· ++ _) (List.append_assoc ..).symm)

variable {thinking : Bool} {tokenizer : Tokenizer} {patternLength : Text → ℕ} {m : Machine}

theorem contentType_qwen3Engine (state : ParserState) :
    (qwen3Engine thinking tokenizer patternLength).contentType state =
      match state with
      | .content => some .textChunk
      | .reasoning => some .reasoningChunk
      | .toolName => some .toolName
      | .toolArgs => some .argValueChunk
      | _ => none := by
  cases state <;> rfl

theorem bracketed_emitForState (text : Text) (hm : m.Plain) :
    Bracketed ((qwen3Engine thinking tokenizer patternLength).emitForState text m) m := by
  have hjson : (qwen3Engine thinking tokenizer patternLength).config.toolArgsJson = false := rfl
  unfold emitForState
  rw [if_neg hm.header, hjson, contentType_qwen3Engine]
  cases hstate : m.state
  all_goals
    refine ⟨by simpa using hm,?_⟩
    simp [Machine.event, ToolCalls.accept, Machine.toolCalls, hstate, ParserState.inCall]

theorem bracketed_applyTransition (hm : m.Plain) {key : ParserState × String}
    {transition : Transition} (htransition : (key,transition) ∈ (qwen3Config thinking).transitions)
    (hstate : m.state = key.1) (value : Text) : Bracketed (applyTransition transition value m) m := by
  obtain ⟨hheader,hargs,hindex,hstarted⟩ := hm
  have hleave : leaveArgs transition.nextState m = (m,[]) := by simp [leaveArgs, hargs]
  have hheader' : takeHeader m = (none,m) := by simp [takeHeader, hheader]
  rw [hstate] at hindex
  simp only [qwen3Config, List.mem_cons, List.not_mem_nil, or_false, Prod.mk.injEq] at htransition
  rcases htransition with h | h | h | h | h | h | h | h | h | h | h | h | h | h | h | h
  all_goals
    obtain ⟨rfl,rfl⟩ := h
    refine ⟨⟨?_,?_,?_,?_⟩,?_⟩
    all_goals
      simp_all [applyTransition, transitionEvents, transduce, enterArgs, Machine.event,
        Machine.toolCalls, ToolCalls.accept, ParserState.inCall, ParserState.isTool]
    all_goals omega

theorem bracketed_onTerminal (terminal : String) (value : Text) (hm : m.Plain) :
    Bracketed ((qwen3Engine thinking tokenizer patternLength).onTerminal everHadTokenIds terminal
      value m) m := by
  unfold onTerminal
  split
  · split
    · exact ⟨hm,rfl⟩
    · exact bracketed_emitForState value hm
  · rename_i transition hlookup
    obtain ⟨before,after,hsplit,-⟩ := List.lookup_eq_some_iff.mp hlookup
    have hmem : ((m.state,terminal),transition) ∈ (qwen3Config thinking).transitions := by
      change _ ∈ (qwen3Engine thinking tokenizer patternLength).config.transitions
      rw [hsplit]
      exact List.mem_append_right _ List.mem_cons_self
    rw [show (qwen3Engine thinking tokenizer patternLength).skipToolParsing = false from rfl]
    split
    · contradiction
    · split
      · exact bracketed_emitForState value hm
      · exact bracketed_applyTransition hm hmem rfl value

theorem bracketed_processLexTokens (tokens : List LexToken) (hm : m.Plain) :
    Bracketed ((qwen3Engine thinking tokenizer patternLength).processLexTokens everHadTokenIds
      tokens m) m := by
  refine Accepted.transduce ?_ tokens m hm
  intro tok m hm
  unfold processLexToken onContent
  split
  · split
    · exact ⟨hm,rfl⟩
    · exact bracketed_emitForState tok.value hm
  · exact bracketed_onTerminal everHadTokenIds tok.terminal tok.value hm

def BracketedCore (r : Core × List SemanticEvent) (m : Machine) : Prop :=
  Accepted ToolCalls.accept (fun c : Core => c.machine.Plain) (fun c => c.machine.toolCalls)
    m.toolCalls r

theorem bracketed_processScannerItems (items : List LexerInput) (c : Core) (hc : c.machine.Plain) :
    BracketedCore ((qwen3Engine thinking tokenizer patternLength).processScannerItems
      everHadTokenIds items c) c.machine := by
  refine Accepted.transduce ?_ items c hc
  intro item c hc
  cases item with
  | preLexed t =>
    exact (bracketed_processLexTokens everHadTokenIds _ hc).andThen
      fun m hm => bracketed_onTerminal everHadTokenIds t.terminal t.text hm
  | textChunk text => exact bracketed_processLexTokens everHadTokenIds _ hc

theorem bracketed_processItems (items : List LexerInput) (c : Core) (hc : c.machine.Plain) :
    BracketedCore ((qwen3Engine thinking tokenizer patternLength).processItems everHadTokenIds
      items c) c.machine := by
  unfold processItems
  split
  · dsimp only
    split
    · split
      · exact bracketed_emitForState _ hc
      · exact bracketed_processLexTokens everHadTokenIds _ hc
    · exact bracketed_processLexTokens everHadTokenIds _ hc
  · exact bracketed_processScannerItems everHadTokenIds items c hc

theorem bracketed_feedAll (s : State) (hs : s.machine.Plain) :
    Accepted ToolCalls.accept (fun s : State => s.machine.Plain) (fun s => s.machine.toolCalls)
      s.machine.toolCalls ((qwen3Engine thinking tokenizer patternLength).feedAll steps s) := by
  refine Accepted.transduce ?_ steps s hs
  intro step s hs
  unfold feed
  dsimp only
  split
  · exact bracketed_emitForState step.2 hs
  · exact bracketed_processItems _ _ ⟨s.machine,s.buffer⟩ hs

theorem bracketed_flushed (s : State) (hs : s.machine.Plain) :
    Bracketed ((qwen3Engine thinking tokenizer patternLength).flushed s) s.machine :=
  (bracketed_processScannerItems s.everHadTokenIds _ ⟨s.machine,s.buffer⟩ hs).andThen
    fun _ hc => bracketed_processLexTokens s.everHadTokenIds _ hc

/-- Between two calls of a block the call has ended already, and `finish` ends it once more. -/
theorem finishMachine_bracketed_iff (hm : m.Plain) :
    (∃ index, (finishMachine m).foldlM ToolCalls.accept m.toolCalls = some ⟨index,false⟩) ↔
      m.state ≠ .toolBetween := by
  have hindex := hm.index
  cases hstate : m.state
  all_goals
    simp_all [finishMachine, hm.args, Machine.event, ToolCalls.accept, Machine.toolCalls,
      ParserState.inCall, ParserState.isTool, hm.header]

theorem tool_calls_bracketed_iff (thinking : Bool) (tokenizer : Tokenizer)
    (patternLength : Text → ℕ) (steps : List (List ℕ × Text)) :
    let engine := qwen3Engine thinking tokenizer patternLength
    WellBracketed (engine.deliver (engine.initialState none) steps) ↔
      (engine.flushed (engine.feedAll steps (engine.initialState none)).1).1.state ≠ .toolBetween := by
  intro engine
  have hmachine : (engine.initialState none).machine =
      { state := if thinking then .reasoning else .content } := rfl
  have hplain : (engine.initialState none).machine.Plain := by
    rw [hmachine]
    cases thinking <;> constructor <;> decide
  have hinitial : (engine.initialState none).machine.toolCalls = {} := by
    rw [hmachine]
    cases thinking <;> rfl
  have hfed : Bracketed (andThen (engine.feedAll steps (engine.initialState none)) engine.flushed)
      (engine.initialState none).machine :=
    (bracketed_feedAll steps _ hplain).andThen fun s hs => bracketed_flushed s hs
  rw [WellBracketed, deliver_eq, ← hinitial]
  change (∃ index, List.foldlM _ _ (_ ++ finishMachine _) = _) ↔ _
  rw [List.foldlM_append, hfed.2]
  exact finishMachine_bracketed_iff hfed.1

/-- The stream ends after `</function>`, before `</tool_call>`. -/
theorem tool_call_ended_twice :
    let engine := qwen3Engine false ⟨[],none,fun _ => []⟩ List.length
    ¬ WellBracketed (engine.deliver (engine.initialState none)
      [([],"<tool_call><function=f></function>".toList)]) := by
  intro engine ⟨index,hindex⟩
  have hnone : List.foldlM ToolCalls.accept {} (engine.deliver (engine.initialState none)
      [([],"<tool_call><function=f></function>".toList)]) = none := by decide +kernel
  rw [hnone] at hindex
  contradiction

end StreamingParserEngine

end MetaZenith.ParserEngine
