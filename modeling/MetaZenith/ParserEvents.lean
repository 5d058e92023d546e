import MetaZenith.StreamingParserEngine

/-! What the lexer and the state machine make of a stream of characters and special tokens. The
events do not depend, up to merging, on how the characters come in chunks. -/

namespace MetaZenith.ParserEngine

open List Transducer LexerShape

namespace StreamingParserEngine

variable {engine : StreamingParserEngine}

theorem joinEvents_of_eq {a b : SemanticEvent} (hchunk : engine.isChunk a.type = true)
    (htype : a.type = b.type) (hindex : a.toolIndex = b.toolIndex) :
    engine.joinEvents a b = some { a with value := a.value ++ b.value } := by
  rw [joinEvents, if_pos]
  simp only [htype, hindex, decide_true, Bool.and_true]
  rw [← htype, hchunk]

theorem joinAssoc (engine : StreamingParserEngine) : JoinAssoc engine.joinEvents := by
  have hsome {a b ab : SemanticEvent} (h : engine.joinEvents a b = some ab) :
      engine.isChunk a.type = true ∧ a.type = b.type ∧ a.toolIndex = b.toolIndex ∧
        ab = { a with value := a.value ++ b.value } := by
    unfold joinEvents at h
    split at h
    · case isTrue hc =>
      simp only [Bool.and_eq_true, decide_eq_true_eq] at hc
      cases h
      exact ⟨hc.1.1,hc.1.2,hc.2,rfl⟩
    · cases h
  refine ⟨fun a b c ab hab hbc => ?_,fun a b c ab bc hab hbc => ?_⟩
  · obtain ⟨-,htype,hindex,rfl⟩ := hsome hab
    unfold joinEvents at hbc ⊢
    simpa [htype, hindex] using hbc
  · obtain ⟨hchunk,htype,hindex,rfl⟩ := hsome hab
    obtain ⟨-,htype',hindex',rfl⟩ := hsome hbc
    refine ⟨{ a with value := a.value ++ b.value ++ c.value },?_,?_⟩
    · exact joinEvents_of_eq hchunk (htype.trans htype') (hindex.trans hindex')
    · rw [append_assoc]
      exact joinEvents_of_eq hchunk htype hindex

theorem same_chunk {m : Machine} {type : EventType} (hchunk : engine.isChunk type = true)
    (text text' : Text) : Same engine.joinEvents (m,[m.event type (text ++ text')])
      (m,[m.event type text,m.event type text']) := by
  refine ⟨rfl,?_⟩
  simp [coalesce, joinCons, joinEvents, Machine.event, hchunk]

theorem state_feedArgsChar (m : Machine) (ch : Char) : (m.feedArgsChar ch).1.state = m.state := by
  have hflush (m : Machine) : m.flushSafeArgs.1.state = m.state := by
    unfold Machine.flushSafeArgs
    split <;> rfl
  unfold Machine.feedArgsChar
  dsimp only
  split_ifs <;> first | rfl | (rw [hflush]; rfl)

theorem state_feedArgsText (text : Text) (m : Machine) : (m.feedArgsText text).1.state = m.state := by
  induction text generalizing m with
  | nil => rfl
  | cons ch text ih => exact (ih _).trans (state_feedArgsChar m ch)

theorem isChunk_of_contentType {state : ParserState} {type : EventType}
    (h : engine.contentType state = some type) : engine.isChunk type = true := by
  have hmem : type ∈ engine.config.contentEvents.map Prod.snd := by
    obtain ⟨l,l',heq,-⟩ := lookup_eq_some_iff.mp h
    rw [heq]
    simp
  simp [isChunk, hmem]

theorem same_emitForState_append (text text' : Text) (m : Machine) :
    Same engine.joinEvents (engine.emitForState (text ++ text') m)
      (andThen (engine.emitForState text m) (engine.emitForState text')) := by
  unfold emitForState
  by_cases hheader : m.state = .messageHeader
  · simp only [if_pos hheader, andThen_nil]
    rw [append_assoc]
    exact .rfl
  simp only [if_neg hheader]
  by_cases hargs : m.state = .toolArgs
  · simp only [if_pos hargs]
    cases engine.config.toolArgsJson with
    | true =>
      -- one character after another
      simp only [if_true]
      have hstate := (state_feedArgsText text m).trans hargs
      rw [Machine.feedArgsText, transduce_append]
      simp only [andThen]
      change Same _ _ ((if (m.feedArgsText text).1.state = _ then _ else _ :
        Machine × List SemanticEvent).1,_)
      rw [hstate]
      exact .rfl
    | false =>
      simp only [Bool.false_eq_true, if_false, andThen, if_neg hheader, if_pos hargs]
      exact same_chunk (by simp [isChunk]) text text'
  · simp only [if_neg hargs]
    cases htype : engine.contentType m.state with
    | none =>
      simp only [andThen_nil, if_neg hheader, if_neg hargs, htype]
      exact .rfl
    | some type =>
      simp only [andThen, if_neg hheader, if_neg hargs, htype]
      exact same_chunk (isChunk_of_contentType htype) text text'

def itemStep (engine : StreamingParserEngine) :
    Char ⊕ LexToken → Machine → Machine × List SemanticEvent
  | .inl c => engine.emitForState [c]
  | .inr tok => engine.processLexToken true tok

theorem same_emitForState {text : Text} (h : text ≠ []) (m : Machine) :
    Same engine.joinEvents (engine.emitForState text m)
      (transduce engine.itemStep (text.map .inl) m) := by
  induction text generalizing m with
  | nil => exact absurd rfl h
  | cons c text ih =>
    by_cases hnil : text = []
    · subst hnil
      rw [map_singleton, transduce_singleton]
      exact .rfl
    · rw [map_cons, transduce_cons]
      refine (same_emitForState_append [c] text m).trans ?_
      exact Same.rfl.andThen engine.joinAssoc (ih hnil _)

theorem same_processLexToken (tok : LexToken) (m : Machine) :
    Same engine.joinEvents (engine.processLexToken true tok m)
      (transduce engine.itemStep (expand tok) m) := by
  unfold expand
  by_cases hcontent : tok.terminal = contentTerminal
  · rw [if_pos hcontent]
    simp only [processLexToken, hcontent, true_or, if_true, onContent]
    by_cases hvalue : tok.value = []
    · simp only [hvalue, isEmpty_nil, if_true, map_nil, transduce_nil]
      exact .rfl
    · simp only [List.isEmpty_iff, hvalue, if_false]
      exact same_emitForState hvalue m
  · rw [if_neg hcontent, transduce_singleton]
    exact .rfl

theorem same_processLexTokens (tokens : List LexToken) (m : Machine) :
    Same engine.joinEvents (engine.processLexTokens true tokens m)
      (transduce engine.itemStep (tokens.flatMap expand) m) :=
  Same.transduce engine.joinAssoc expand same_processLexToken tokens m

/-- Parse atoms behind a text that belongs to the first of them: characters up to a special token
are cut into terminals and content together. -/
def parseAtoms (engine : StreamingParserEngine) :
    Text → List Atom → Machine → Machine × List SemanticEvent
  | text, [], m => transduce engine.itemStep (engine.lexerShape.lexAll text) m
  | text, .letter c :: atoms, m => engine.parseAtoms (text ++ [c]) atoms m
  | text, .special t :: atoms, m =>
    andThen (transduce engine.itemStep (engine.lexerShape.lexAll text) m) fun m =>
      andThen (engine.onTerminal true t.terminal t.text m) (engine.parseAtoms [] atoms)

theorem parseAtoms_letters (text more : Text) (atoms : List Atom) (m : Machine) :
    engine.parseAtoms text (more.map .letter ++ atoms) m = engine.parseAtoms (text ++ more) atoms m := by
  induction more generalizing text with
  | nil => rw [append_nil]; rfl
  | cons c more ih =>
    rw [map_cons, cons_append, parseAtoms, ih, append_assoc]
    rfl

theorem parseAtoms_of_lexed {text : Text} {r : List LexToken × Text}
    (h : engine.lexerShape.Lexed false text r) (more : Text) (atoms : List Atom) (m : Machine) :
    engine.parseAtoms (text ++ more) atoms m =
      andThen (transduce engine.itemStep (r.1.flatMap expand) m)
        (engine.parseAtoms (r.2 ++ more) atoms) := by
  have hlex (more : Text) : engine.lexerShape.lexAll (text ++ more) =
      r.1.flatMap expand ++ engine.lexerShape.lexAll (r.2 ++ more) := h.tokens more (nomatch ·)
  induction atoms generalizing more with
  | nil =>
    rw [parseAtoms, hlex, transduce_append]
    rfl
  | cons a atoms ih =>
    cases a with
    | letter c =>
      rw [parseAtoms, append_assoc, ih]
      congr 1
      funext m
      rw [parseAtoms, append_assoc]
    | special t =>
      rw [parseAtoms, hlex, transduce_append, andThen_assoc]
      rfl

theorem same_parseAtoms_of_lexed {text : Text} {r : List LexToken × Text}
    (h : engine.lexerShape.Lexed false text r) (atoms : List Atom) (m : Machine) :
    Same engine.joinEvents (andThen (engine.processLexTokens true r.1 m) (engine.parseAtoms r.2 atoms))
      (engine.parseAtoms text atoms m) := by
  have hparse := parseAtoms_of_lexed h [] atoms m
  rw [append_nil, append_nil] at hparse
  rw [hparse]
  exact (same_processLexTokens r.1 m).andThen engine.joinAssoc .rfl

def parseFrom (engine : StreamingParserEngine) (atoms : List Atom) (c : Core) :
    Machine × List SemanticEvent := engine.parseAtoms c.buffer atoms c.machine

variable (hlits : ∀ l ∈ engine.lexerShape.literalStrings, l.1 ≠ [])

include hlits in
theorem same_flush (buffer : Text) (m : Machine) : Same engine.joinEvents
      (engine.processLexTokens true (engine.lexerShape.flush buffer).1 m)
      (transduce engine.itemStep (engine.lexerShape.lexAll buffer) m) := by
  rw [(lexed_flush hlits buffer).1]
  exact same_processLexTokens _ m

include hlits in
theorem same_processScannerItem (item : LexerInput) (atoms : List Atom) (c : Core) :
    Same engine.joinEvents (andThen (engine.processScannerItem true item c) (engine.parseFrom atoms))
      (engine.parseFrom (item.atoms ++ atoms) c) := by
  cases item with
  | textChunk text =>
    have hlexed := lexed_feed hlits c.buffer text
    have hsame := same_parseAtoms_of_lexed hlexed atoms c.machine
    rw [parseFrom, LexerInput.atoms, parseAtoms_letters]
    exact hsame
  | preLexed t =>
    have hflush := lexed_flush hlits c.buffer
    have hsame := same_flush hlits c.buffer c.machine
    have hstep : andThen (engine.processScannerItem true (.preLexed t) c) (engine.parseFrom atoms) =
        andThen (engine.processLexTokens true (engine.lexerShape.flush c.buffer).1 c.machine) fun m =>
          andThen (engine.onTerminal true t.terminal t.text m) (engine.parseAtoms [] atoms) := by
      rw [← andThen_assoc]
      simp [processScannerItem, andThen, parseFrom, hflush.2]
    rw [hstep]
    exact hsame.andThen engine.joinAssoc .rfl

include hlits in
theorem same_processScannerItems (items : List LexerInput) (atoms : List Atom) (c : Core) :
    Same engine.joinEvents (andThen (engine.processScannerItems true items c) (engine.parseFrom atoms))
      (engine.parseFrom (atomsOf items ++ atoms) c) := by
  induction items generalizing c with
  | nil => exact .rfl
  | cons item items ih =>
    have hatoms : atomsOf (item :: items) ++ atoms = item.atoms ++ (atomsOf items ++ atoms) := by
      rw [← append_assoc]
      rfl
    rw [hatoms, processScannerItems, transduce_cons, andThen_assoc]
    refine Same.trans ?_ (same_processScannerItem hlits item _ c)
    exact Same.rfl.andThen engine.joinAssoc (ih _)

include hlits in
theorem processItems_eq {items : List LexerInput} (hchunks : NoEmptyChunk items) (c : Core) :
    engine.processItems true items c = engine.processScannerItems true items c := by
  unfold processItems
  split
  · case h_1 text =>
    have hvalues := (lexed_feed hlits c.buffer text).nonempty (by
      intro hnil
      have htext : text = [] := (append_eq_nil_iff.mp hnil).2
      exact hchunks (by rw [htext]; exact mem_cons_self))
    rw [processScannerItems, transduce_singleton]
    simp only [processScannerItem]
    generalize engine.lexerShape.feed c.buffer text = fed at hvalues
    split
    · case h_1 tok htok =>
      have htokvalue := hvalues tok (by rw [htok]; exact mem_cons_self)
      rw [htok]
      by_cases hcontent : tok.terminal = contentTerminal
      · simp [processLexTokens, processLexToken, hcontent, onContent, htokvalue]
      · rw [if_neg hcontent]
    · rfl
  · rfl

end StreamingParserEngine

end MetaZenith.ParserEngine
