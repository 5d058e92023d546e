import MetaZenith.StreamingParserEngine

/-! Content and reasoning in the deltas that `_events_to_delta` makes of the events of each call. -/

namespace MetaZenith.ParserEngine

open List Transducer

/-- `isSpace` is what `strip` removes. -/
structure DeltaConfig where
  isSpace : Char → Bool
  suppressToolCalls : Bool := false
  dropWsOnlyContentBeforeTools : Bool := false

structure DeltaState where
  deferredContent : Text := []
  contentHasNonws : Bool := false
  toolSlots : ℕ := 0

structure DeltaMessage where
  content : Text
  reasoning : Text
  toolCalls : Bool
  deriving DecidableEq

/-- An event, with whether its handler appends a tool-call delta. The handlers of arguments and ends
may do so once there is a slot. -/
abbrev HandledEvent := SemanticEvent × Bool

structure DeltaParts where
  contentParts : Text := []
  reasoningParts : Text := []
  deferredContent : Text
  seenToolEvent : Bool := false
  toolCallDeltas : Bool := false
  toolSlots : ℕ

variable {p : DeltaParts}

namespace DeltaConfig

variable (cfg : DeltaConfig)

def eventToParts (p : DeltaParts) (e : HandledEvent) : DeltaParts :=
  match e.1.type with
  | .textChunk =>
    if p.seenToolEvent then { p with deferredContent := p.deferredContent ++ e.1.value }
    else { p with contentParts := p.contentParts ++ e.1.value }
  | .reasoningChunk => { p with reasoningParts := p.reasoningParts ++ e.1.value }
  | .reasoningEnd | .reasoningStart => p
  | .toolCallStart =>
    if cfg.suppressToolCalls then p
    else { p with seenToolEvent := true, toolSlots := max p.toolSlots (e.1.toolIndex+1).toNat }
  | .toolName => if cfg.suppressToolCalls then p else { p with seenToolEvent := true }
  | .argValueChunk | .toolCallEnd =>
    if cfg.suppressToolCalls then p
    else { p with
      seenToolEvent := true
      toolCallDeltas := p.toolCallDeltas || e.2 && decide (p.toolSlots ≠ 0) }

def parts (s : DeltaState) (events : List HandledEvent) : DeltaParts :=
  events.foldl cfg.eventToParts { deferredContent := s.deferredContent, toolSlots := s.toolSlots }

def flushDeferred (p : DeltaParts) : Text × Text :=
  if p.deferredContent ≠ [] ∧ (!p.seenToolEvent || !p.toolCallDeltas) then
    (p.deferredContent ++ p.contentParts,[])
  else (p.contentParts,p.deferredContent)

def isBlank (text : Text) : Bool := text.all cfg.isSpace

def settleContent (finished : Bool) (s : DeltaState) (p : DeltaParts) : Text × DeltaState :=
  let (content,deferred) := flushDeferred p
  let s' : DeltaState := ⟨deferred,s.contentHasNonws,p.toolSlots⟩
  if s.contentHasNonws || content.isEmpty then (content,s')
  else if !cfg.isBlank content then (content,{ s' with contentHasNonws := true })
  else if p.toolSlots ≠ 0 then (if cfg.dropWsOnlyContentBeforeTools then [] else content,s')
  else if !finished then ([],{ s' with deferredContent := content })
  else (content,s')

def eventsToDelta (finished : Bool) (events : List HandledEvent) (s : DeltaState) :
    DeltaState × List DeltaMessage :=
  if events.isEmpty && s.deferredContent.isEmpty then (s,[])
  else
    let p := cfg.parts s events
    let (content,s') := cfg.settleContent finished s p
    (s',if content ≠ [] ∨ p.toolCallDeltas ∨ p.reasoningParts ≠ [] then
      [⟨content,p.reasoningParts,p.toolCallDeltas⟩] else [])

def nonws (text : Text) : Text := text.filter fun c => !cfg.isSpace c

def isToolEvent (e : HandledEvent) : Bool :=
  !cfg.suppressToolCalls && e.1.type ∈ [.toolCallStart,.toolName,.argValueChunk,.toolCallEnd]

def chunksOf (type : EventType) (events : List HandledEvent) : Text :=
  events.flatMap fun e => if e.1.type = type then e.1.value else []

def textBefore (events : List HandledEvent) : Text :=
  chunksOf .textChunk (events.takeWhile fun e => !cfg.isToolEvent e)

def textAfter (events : List HandledEvent) : Text :=
  chunksOf .textChunk (events.dropWhile fun e => !cfg.isToolEvent e)

variable {cfg}

theorem foldl_parts_of_seen (cfg : DeltaConfig) (events : List HandledEvent)
    (hp : p.seenToolEvent = true) : (events.foldl cfg.eventToParts p).contentParts = p.contentParts ∧
      (events.foldl cfg.eventToParts p).deferredContent =
        p.deferredContent ++ chunksOf .textChunk events ∧
      (events.foldl cfg.eventToParts p).seenToolEvent = true := by
  induction events generalizing p with
  | nil => simp [chunksOf, hp]
  | cons e events ih =>
    have hnext : (cfg.eventToParts p e).seenToolEvent = true ∧
        (cfg.eventToParts p e).contentParts = p.contentParts ∧
        (cfg.eventToParts p e).deferredContent = p.deferredContent ++ chunksOf .textChunk [e] := by
      unfold eventToParts
      cases htype : e.1.type <;> simp [chunksOf, htype, hp] <;> split <;> simp [hp]
    obtain ⟨hc,hd,hs⟩ := ih hnext.1
    exact ⟨hc.trans hnext.2.1,by simp [hd, hnext.2.2, chunksOf],hs⟩

theorem foldl_parts_of_unseen (events : List HandledEvent) (hp : p.seenToolEvent = false) :
    (events.foldl cfg.eventToParts p).contentParts = p.contentParts ++ cfg.textBefore events ∧
      (events.foldl cfg.eventToParts p).deferredContent = p.deferredContent ++ cfg.textAfter events ∧
      (events.foldl cfg.eventToParts p).seenToolEvent = events.any cfg.isToolEvent := by
  induction events generalizing p with
  | nil => simp [textBefore, textAfter, chunksOf, hp]
  | cons e events ih =>
    cases htool : cfg.isToolEvent e with
    | true =>
      -- from the first tool event on, text is deferred
      have hnext : (cfg.eventToParts p e).seenToolEvent = true ∧
          (cfg.eventToParts p e).contentParts = p.contentParts ∧
          (cfg.eventToParts p e).deferredContent = p.deferredContent ∧ e.1.type ≠ .textChunk := by
        unfold eventToParts
        cases htype : e.1.type <;> simp_all [isToolEvent]
      obtain ⟨hc,hd,hs⟩ := foldl_parts_of_seen cfg events hnext.1
      simp [textBefore, textAfter, htool, hc, hd, hs, hnext.2.1, hnext.2.2.1, chunksOf, hnext.2.2.2]
    | false =>
      have hnext : (cfg.eventToParts p e).seenToolEvent = false ∧
          (cfg.eventToParts p e).contentParts = p.contentParts ++ chunksOf .textChunk [e] ∧
          (cfg.eventToParts p e).deferredContent = p.deferredContent := by
        unfold eventToParts
        cases htype : e.1.type <;> simp_all [isToolEvent, chunksOf]
      obtain ⟨hc,hd,hs⟩ := ih hnext.1
      simp [textBefore, textAfter, htool, hc, hd, hs, hnext.2.1, hnext.2.2, chunksOf]

theorem foldl_parts_toolCallDeltas (events : List HandledEvent)
    (hp : p.toolCallDeltas = true → p.seenToolEvent = true ∧ p.toolSlots ≠ 0) :
    (events.foldl cfg.eventToParts p).toolCallDeltas = true →
      (events.foldl cfg.eventToParts p).seenToolEvent = true ∧
        (events.foldl cfg.eventToParts p).toolSlots ≠ 0 := by
  induction events generalizing p with
  | nil => exact hp
  | cons e events ih =>
    refine ih ?_
    unfold eventToParts
    cases e.1.type <;> grind

theorem foldl_parts_reasoning (events : List HandledEvent) (p : DeltaParts) :
    (events.foldl cfg.eventToParts p).reasoningParts =
      p.reasoningParts ++ chunksOf .reasoningChunk events := by
  induction events generalizing p with
  | nil => simp [chunksOf]
  | cons e events ih =>
    have hnext : (cfg.eventToParts p e).reasoningParts =
        p.reasoningParts ++ chunksOf .reasoningChunk [e] := by
      unfold eventToParts
      cases htype : e.1.type <;> simp [chunksOf, htype] <;> split <;> rfl
    rw [foldl_cons, ih, hnext, append_assoc]
    simp [chunksOf]

theorem settleContent_spec (cfg : DeltaConfig) (finished : Bool) (s : DeltaState)
    (hp : p.toolCallDeltas = true → p.seenToolEvent = true ∧ p.toolSlots ≠ 0) :
    cfg.nonws (cfg.settleContent finished s p).1 = cfg.nonws (flushDeferred p).1 ∧
      cfg.nonws (cfg.settleContent finished s p).2.deferredContent = cfg.nonws (flushDeferred p).2 := by
  have hblank {text : Text} (h : ¬(!cfg.isBlank text) = true) : cfg.nonws text = [] := by
    simpa [isBlank, nonws] using h
  have hdeferred (h : ¬p.toolSlots ≠ 0) : (flushDeferred p).2 = [] := by
    have hnone : p.toolCallDeltas = false := by
      by_contra hsome
      exact h (hp (by simpa using hsome)).2
    unfold flushDeferred
    by_cases hd : p.deferredContent = [] <;> simp [hnone, hd]
  unfold settleContent
  dsimp only
  split
  · exact ⟨rfl,rfl⟩
  split
  · exact ⟨rfl,rfl⟩
  rename_i hcontent
  split
  · split
    · exact ⟨(hblank hcontent).symm,rfl⟩
    · exact ⟨rfl,rfl⟩
  rename_i hslots
  split
  · refine ⟨(hblank hcontent).symm,?_⟩
    rw [hdeferred hslots]
    exact hblank hcontent
  · exact ⟨rfl,rfl⟩

theorem eventsToDelta_spec (cfg : DeltaConfig) (finished : Bool) (events : List HandledEvent)
    (s : DeltaState) :
    let r := cfg.eventsToDelta finished events s
    cfg.nonws (r.2.flatMap (·.content)) = cfg.nonws (flushDeferred (cfg.parts s events)).1 ∧
      cfg.nonws r.1.deferredContent = cfg.nonws (flushDeferred (cfg.parts s events)).2 ∧
      r.2.flatMap (·.reasoning) = chunksOf .reasoningChunk events := by
  have hreasoning : (cfg.parts s events).reasoningParts = chunksOf .reasoningChunk events :=
    foldl_parts_reasoning events _
  have hdeltas : (cfg.parts s events).toolCallDeltas = true →
      (cfg.parts s events).seenToolEvent = true ∧ (cfg.parts s events).toolSlots ≠ 0 :=
    foldl_parts_toolCallDeltas events (by simp)
  obtain ⟨hcontent,hdeferred⟩ := settleContent_spec cfg finished s hdeltas
  unfold eventsToDelta
  split
  · rename_i hempty
    simp only [Bool.and_eq_true, List.isEmpty_iff] at hempty
    simp [hempty.1, hempty.2, parts, flushDeferred, nonws, chunksOf]
  · refine ⟨?_,hdeferred,?_⟩
    · rw [← hcontent]
      dsimp only
      split
      · simp
      · rename_i hnone
        simp [not_or.mp hnone |>.1 |> not_not.mp]
    · rw [← hreasoning]
      dsimp only
      split
      · simp
      · rename_i hnone
        simp only [not_or, not_not] at hnone
        simp [hnone.2.2]

theorem flushDeferred_parts (s : DeltaState) (events : List HandledEvent) :
    flushDeferred (cfg.parts s events) =
      if (cfg.parts s events).toolCallDeltas then
        (cfg.textBefore events,s.deferredContent ++ cfg.textAfter events)
      else (s.deferredContent ++ cfg.textAfter events ++ cfg.textBefore events,[]) := by
  obtain ⟨hc,hd,-⟩ : (cfg.parts s events).contentParts = [] ++ cfg.textBefore events ∧
      (cfg.parts s events).deferredContent = s.deferredContent ++ cfg.textAfter events ∧ _ :=
    foldl_parts_of_unseen events rfl
  have hdeltas : (cfg.parts s events).toolCallDeltas = true →
      (cfg.parts s events).seenToolEvent = true ∧ (cfg.parts s events).toolSlots ≠ 0 :=
    foldl_parts_toolCallDeltas events (by simp)
  rw [flushDeferred, hc, hd, nil_append]
  cases htool : (cfg.parts s events).toolCallDeltas with
  | true => simp [(hdeltas htool).1]
  | false =>
    by_cases hempty : s.deferredContent ++ cfg.textAfter events = []
    · simp [hempty]
    · simp [hempty]

def Conserved (cfg : DeltaConfig) (r : DeltaState × List DeltaMessage) (text : Text) : Prop :=
  cfg.nonws (r.2.flatMap (·.content)) ++ cfg.nonws r.1.deferredContent = cfg.nonws text

/-- A call that sends tool calls lets its text overtake what is deferred, and one that sends none
lets the text after the tool events overtake the text before them. -/
def KeepsOrder (cfg : DeltaConfig) (s : DeltaState) (events : List HandledEvent) : Prop :=
  if (cfg.parts s events).toolCallDeltas then
    cfg.nonws (cfg.textBefore events) ++ cfg.nonws s.deferredContent =
      cfg.nonws s.deferredContent ++ cfg.nonws (cfg.textBefore events)
  else
    cfg.nonws (cfg.textAfter events) ++ cfg.nonws (cfg.textBefore events) =
      cfg.nonws (cfg.textBefore events) ++ cfg.nonws (cfg.textAfter events)

/-- After the last call what is deferred is lost. -/
def KeepsLast (cfg : DeltaConfig) (s : DeltaState) (events : List HandledEvent) : Prop :=
  cfg.KeepsOrder s events ∧ ((cfg.parts s events).toolCallDeltas = true →
    cfg.nonws s.deferredContent = [] ∧ cfg.nonws (cfg.textAfter events) = [])

theorem nonws_append (text text' : Text) :
    cfg.nonws (text ++ text') = cfg.nonws text ++ cfg.nonws text' := filter_append ..

theorem chunksOf_append (type : EventType) (l l' : List HandledEvent) :
    chunksOf type (l ++ l') = chunksOf type l ++ chunksOf type l' := flatMap_append ..

theorem nonws_chunksOf (events : List HandledEvent) : cfg.nonws (chunksOf .textChunk events) =
      cfg.nonws (cfg.textBefore events) ++ cfg.nonws (cfg.textAfter events) := by
  rw [← nonws_append, textBefore, textAfter, ← chunksOf_append, takeWhile_append_dropWhile]

variable {r : DeltaState × List DeltaMessage} {text : Text}

theorem conserved_call_iff (h : cfg.Conserved r text) (events : List HandledEvent) :
    cfg.Conserved (andThen r (cfg.eventsToDelta false events)) (text ++ chunksOf .textChunk events) ↔
      cfg.KeepsOrder r.1 events := by
  obtain ⟨hcontent,hdeferred,-⟩ := eventsToDelta_spec cfg false events r.1
  rw [Conserved, andThen, flatMap_append, nonws_append, nonws_append, nonws_chunksOf, hcontent,
    hdeferred, flushDeferred_parts, ← h, KeepsOrder]
  split
  · simp only [nonws_append, append_assoc, append_cancel_left_eq]
    rw [← append_assoc, ← append_assoc, append_cancel_right_eq]
  · simp only [nonws_append, append_assoc, append_cancel_left_eq]
    simp [nonws]

theorem conserved_last_iff (h : cfg.Conserved r text) (events : List HandledEvent) :
    cfg.nonws ((andThen r (cfg.eventsToDelta true events)).2.flatMap (·.content)) =
        cfg.nonws (text ++ chunksOf .textChunk events) ↔ cfg.KeepsLast r.1 events := by
  obtain ⟨hcontent,-,-⟩ := eventsToDelta_spec cfg true events r.1
  rw [andThen, flatMap_append, nonws_append, nonws_append, nonws_chunksOf, hcontent,
    flushDeferred_parts, ← h, KeepsLast, KeepsOrder]
  split
  · rename_i hdeltas
    simp only [append_assoc, append_cancel_left_eq, hdeltas, true_imp_iff]
    constructor
    · intro heq
      have hlen := congrArg length heq
      simp only [length_append] at hlen
      have hd := length_eq_zero_iff.mp (show (cfg.nonws r.1.deferredContent).length = 0 by omega)
      have ha := length_eq_zero_iff.mp (show (cfg.nonws (cfg.textAfter events)).length = 0 by
        omega)
      exact ⟨by rw [hd, append_nil, nil_append],hd,ha⟩
    · rintro ⟨-,hd,ha⟩
      rw [hd, ha, nil_append, append_nil]
  · rename_i hdeltas
    simp only [nonws_append, append_assoc, append_cancel_left_eq]
    simp [hdeltas]

def deltas (cfg : DeltaConfig) (calls : List (List HandledEvent)) : DeltaState × List DeltaMessage :=
  transduce (cfg.eventsToDelta false) calls {}

theorem reasoning_deltas (cfg : DeltaConfig) (calls : List (List HandledEvent)) (s : DeltaState) :
    (transduce (cfg.eventsToDelta false) calls s).2.flatMap (·.reasoning) =
      chunksOf .reasoningChunk calls.flatten := by
  induction calls generalizing s with
  | nil => rfl
  | cons events calls ih =>
    rw [transduce_cons, andThen, flatMap_append, ih, (eventsToDelta_spec ..).2.2]
    simp [chunksOf]

/-- The reasoning is always sent as it came. The content is conserved after every call exactly if no
call lets text overtake text, and the last one loses none. -/
theorem content_conserved_iff (cfg : DeltaConfig) (calls : List (List HandledEvent))
    (last : List HandledEvent) :
    let r := andThen (cfg.deltas calls) (cfg.eventsToDelta true last)
    r.2.flatMap (·.reasoning) = chunksOf .reasoningChunk (calls.flatten ++ last) ∧
      ((∀ sent, sent <+: calls → cfg.Conserved (cfg.deltas sent) (chunksOf .textChunk sent.flatten)) ∧
          cfg.nonws (r.2.flatMap (·.content)) =
            cfg.nonws (chunksOf .textChunk (calls.flatten ++ last)) ↔
        (∀ sent events, sent ++ [events] <+: calls → cfg.KeepsOrder (cfg.deltas sent).1 events) ∧
          cfg.KeepsLast (cfg.deltas calls).1 last) := by
  have hnext (sent : List (List HandledEvent)) (events : List HandledEvent) :
      cfg.deltas (sent ++ [events]) = andThen (cfg.deltas sent) (cfg.eventsToDelta false events) := by
    rw [deltas, transduce_append]
    exact congrArg (andThen _) (funext fun s => transduce_singleton ..)
  have hcall (sent : List (List HandledEvent)) (events : List HandledEvent)
      (h : cfg.Conserved (cfg.deltas sent) (chunksOf .textChunk sent.flatten)) :
      cfg.Conserved (cfg.deltas (sent ++ [events])) (chunksOf .textChunk (sent ++ [events]).flatten) ↔
        cfg.KeepsOrder (cfg.deltas sent).1 events := by
    rw [hnext, ← conserved_call_iff h, flatten_append, flatten_singleton,
      chunksOf_append]
  intro r
  constructor
  · change flatMap _ ((cfg.deltas calls).2 ++ (cfg.eventsToDelta true last _).2) = _
    rw [chunksOf_append, flatMap_append, (eventsToDelta_spec ..).2.2]
    exact congrArg (· ++ _) (reasoning_deltas cfg calls {})
  · rw [chunksOf_append]
    constructor
    · rintro ⟨hsent,hlast⟩
      refine ⟨fun sent events hpre => ?_,(conserved_last_iff (hsent calls (prefix_refl _)) last).mp
        hlast⟩
      exact (hcall sent events (hsent sent ((prefix_append _ _).trans hpre))).mp (hsent _ hpre)
    · rintro ⟨hsent,hlast⟩
      have hall (sent : List (List HandledEvent)) :
          sent <+: calls → cfg.Conserved (cfg.deltas sent) (chunksOf .textChunk sent.flatten) := by
        induction sent using reverseRecOn with
        | nil => exact fun _ => rfl
        | append_singleton sent events ih =>
          intro hpre
          exact (hcall sent events (ih ((prefix_append _ _).trans hpre))).mpr
            (hsent sent events hpre)
      exact ⟨hall,(conserved_last_iff (hall calls (prefix_refl _)) last).mpr hlast⟩

/-- A whole answer in one call: the text after a tool call is lost. -/
theorem content_after_tool_call_lost :
    let cfg : DeltaConfig := { isSpace := Char.isWhitespace }
    let events : List HandledEvent := [(⟨.toolCallStart,[],0⟩,false),(⟨.toolName,['f'],0⟩,false),
      (⟨.toolCallEnd,[],0⟩,true),(⟨.textChunk,['x'],0⟩,false)]
    (cfg.eventsToDelta true events {}).2 = [⟨[],[],true⟩] ∧
      cfg.nonws (chunksOf .textChunk events) = ['x'] := by
  decide +kernel

end DeltaConfig

end MetaZenith.ParserEngine
