import MetaZenith.ScannerSound
import MetaZenith.ParserEvents
import MetaZenith.Qwen3Config

/-! A stream of tokens is delivered in groups, its text possibly later. The merged events are those
of the stream, however it is delivered, as long as the scanner finds each special token at its own
place. -/

namespace MetaZenith.ParserEngine

open TokenIDScanner List Transducer

/-- A stream cut into groups, and its text cut into as many pieces: the text given up to a group is
text of the ids given so far, and at the end all text is given. -/
structure Delivery (decode : ℕ → Text) (stream : List ℕ) where
  steps : List (List ℕ × Text)
  ids : steps.flatMap Prod.fst = stream
  text : steps.flatMap Prod.snd = stream.flatMap decode
  held : ∀ pre, pre <+: steps → pre.flatMap Prod.snd <+: (pre.flatMap Prod.fst).flatMap decode

namespace Delivery

variable {decode : ℕ → Text} {stream : List ℕ}

def unread (decode : ℕ → Text) (pre : List (List ℕ × Text)) : Text :=
  ((pre.flatMap Prod.fst).flatMap decode).drop (pre.flatMap Prod.snd).length

variable (d : Delivery decode stream)

/-- Every step is one where the scanner finds each special token at its own place. Either no text is
held back before and after it; or the texts of special tokens occur in the stream only at such
tokens, none comes twice in a group with text still held back, and the text does not end inside a
dropped token. -/
def Anchored (scanner : TokenIDScanner) : Prop :=
  ∀ pre step, pre ++ [step] <+: d.steps →
    (unread decode pre = [] ∧ unread decode (pre ++ [step]) = []) ∨
      (Clear (scanner.streamAtoms stream) ∧
        (unread decode (pre ++ [step]) = [] ∨
          ((specialsOf (scanner.streamAtoms step.1)).map PreLexedTerminal.text).Nodup) ∧
        NoCut (scanner.streamAtoms ((pre ++ [step]).flatMap Prod.fst)) (unread decode (pre ++ [step])))

theorem text_append_unread {pre : List (List ℕ × Text)} (h : pre <+: d.steps) :
    pre.flatMap Prod.snd ++ unread decode pre = (pre.flatMap Prod.fst).flatMap decode :=
  prefix_iff_eq_append.mp (d.held pre h)

theorem unread_steps : unread decode d.steps = [] := by
  rw [unread, d.ids, d.text, drop_length]

end Delivery

theorem TokenIDScanner.textOf_streamAtoms (scanner : TokenIDScanner) (ids : List ℕ) :
    textOf (scanner.streamAtoms ids) = ids.flatMap scanner.decode := by
  induction ids with
  | nil => rfl
  | cons tid ids ih =>
    have hstream : scanner.streamAtoms (tid :: ids) =
        scanner.tokenAtoms tid ++ scanner.streamAtoms ids := flatMap_cons
    rw [hstream, textOf_append, ih, flatMap_cons]
    unfold tokenAtoms
    cases scanner.terminalOf tid with
    | some terminal => simp [Atom.text]
    | none => simp

theorem TokenIDScanner.streamAtoms_append (scanner : TokenIDScanner) (ids ids' : List ℕ) :
    scanner.streamAtoms (ids ++ ids') = scanner.streamAtoms ids ++ scanner.streamAtoms ids' :=
  flatMap_append

theorem TokenIDScanner.solid_streamAtoms {scanner : TokenIDScanner}
    (h : ∀ tid, (scanner.terminalOf tid).isSome → scanner.decode tid ≠ []) (ids : List ℕ) :
    Solid (scanner.streamAtoms ids) := by
  induction ids with
  | nil => exact fun _ ht => nomatch ht
  | cons tid ids ih =>
    intro t ht
    have hstream : scanner.streamAtoms (tid :: ids) =
        scanner.tokenAtoms tid ++ scanner.streamAtoms ids := flatMap_cons
    rw [hstream, specialsOf_append, mem_append] at ht
    rcases ht with ht | ht
    · unfold tokenAtoms at ht
      cases hterm : scanner.terminalOf tid with
      | none =>
        rw [hterm] at ht
        simp at ht
      | some terminal =>
        rw [hterm] at ht
        rw [mem_singleton.mp ht]
        exact h tid (by rw [hterm]; rfl)
    · exact ih t ht

namespace StreamingParserEngine

structure NonEmpty (engine : StreamingParserEngine) : Prop where
  literals : ∀ l ∈ engine.lexerShape.literalStrings, l.1 ≠ []
  specials : ∀ tid, (engine.scanner.terminalOf tid).isSome → engine.decode tid ≠ []

structure Between (s : State) (left : List Atom) (unread : Text) : Prop where
  pending : Pending s.deferred left unread
  complete : unread = [] → left = []
  fresh : s.everHadTokenIds = false → left = [] ∧ unread = []

variable {engine : StreamingParserEngine}

theorem same_feed (hengine : engine.NonEmpty) {s : State} {left : List Atom} {before after delta : Text}
    {ids : List ℕ} (hs : Between s left before)
    (hdelta : before ++ ids.flatMap engine.decode = delta ++ after)
    (hsolid : Solid (left ++ engine.scanner.streamAtoms ids))
    (hanchored : Anchored left (engine.scanner.streamAtoms ids) before after) :
    ∃ left' emitted, emitted ++ left' = left ++ engine.scanner.streamAtoms ids ∧
      Between (engine.feed s delta ids).1 left' after ∧ ∀ atoms, Same engine.joinEvents
        (andThen (engine.feed s delta ids) fun s' => engine.parseFrom atoms ⟨s'.machine,s'.buffer⟩)
        (engine.parseFrom (emitted ++ atoms) ⟨s.machine,s.buffer⟩) := by
  have hdelta' : before ++ textOf (engine.scanner.streamAtoms ids) = delta ++ after := by
    rw [engine.scanner.textOf_streamAtoms]
    exact hdelta
  by_cases hever : (s.everHadTokenIds || !ids.isEmpty) = false
  · -- nothing has come yet
    rw [Bool.or_eq_false_iff, Bool.not_eq_false', List.isEmpty_iff] at hever
    obtain ⟨hs0,rfl⟩ := hever
    obtain ⟨rfl,rfl⟩ := hs.fresh hs0
    obtain ⟨rfl,rfl⟩ : delta = [] ∧ after = [] := append_eq_nil_iff.mp hdelta.symm
    have hdeferred : s.deferred = {} := by
      have hterminals := hs.pending.terminals
      have hpost := hs.pending.settled rfl
      cases hd : s.deferred
      rw [hd] at hterminals hpost
      congr
    have hfeed : engine.feed s [] [] = (s,[]) := by
      have hscan : engine.scanner.scan {} [] [] = ([],{}) := by
        simp [scan, scanGroup, hasSpecial, textItem]
      simp only [feed, isPlain, isEmpty_nil, Bool.not_true, Bool.false_and, Bool.false_eq_true,
        if_false, hdeferred, hscan, hs0, Bool.or_false]
      simp only [processItems, processScannerItems, transduce_nil]
      rw [← hdeferred, ← hs0]
    rw [hfeed]
    exact ⟨[],[],rfl,hs,fun atoms => .rfl⟩
  rw [Bool.not_eq_false] at hever
  by_cases hplain : engine.isPlain s delta ids = true
  · -- the shortcut for plain content
    have hfeed : engine.feed s delta ids =
        ({ s with machine := (engine.emitForState delta s.machine).1, everHadTokenIds := true },
          (engine.emitForState delta s.machine).2) := by
      simp [feed, hplain, hever]
    simp only [isPlain, Bool.and_eq_true, Bool.not_eq_true', List.isEmpty_iff, List.isEmpty_eq_false_iff]
      at hplain
    obtain ⟨⟨⟨⟨hdeltane,hbuffer⟩,hterminals⟩,hpotential⟩,hspecial⟩ := hplain
    have hnone : specialsOf left = [] := by rw [← hs.pending.terminals, hterminals]
    have hpost := hs.pending.settled hnone
    have hgroup := specialsOf_streamAtoms_eq_nil.mpr hspecial
    have htext : delta ++ after = textOf (left ++ engine.scanner.streamAtoms ids) := by
      rw [textOf_append, ← hs.pending.text, hpost, List.nil_append, hdelta']
    have hletters : left ++ engine.scanner.streamAtoms ids = (delta ++ after).map .letter := by
      rw [htext]
      apply eq_letters_of_specialsOf_eq_nil
      rw [specialsOf_append, hnone, hgroup]
      rfl
    rw [hfeed]
    refine ⟨after.map .letter,delta.map .letter,?_,⟨⟨?_,?_,fun _ => hpost⟩,fun h => ?_,fun h => ?_⟩,
      fun atoms => ?_⟩
    · rw [hletters, map_append]
    · rw [specialsOf_letters]
      exact hterminals
    · rw [textOf_letters]
      change s.deferred.postText ++ after = after
      rw [hpost]
      rfl
    · rw [h]
      rfl
    · cases h
    · have hlexed : engine.lexerShape.Lexed false delta ([⟨contentTerminal,delta⟩],[]) := by
        refine ⟨fun more _ => ?_,(fun h => by cases h),fun _ tok htok => ?_⟩
        · rw [flatMap_singleton]
          exact LexerShape.lexAll_content
            (LexerShape.munch_append_of_no_potential hengine.literals hpotential more)
        · rw [mem_singleton.mp htok]
          exact hdeltane
      have hsame := same_parseAtoms_of_lexed hlexed atoms s.machine
      have hemit : engine.processLexTokens true [⟨contentTerminal,delta⟩] s.machine =
          engine.emitForState delta s.machine := by
        simp [processLexTokens, processLexToken, onContent, hdeltane]
      rw [hemit] at hsame
      rw [parseFrom, hbuffer, parseAtoms_letters, List.nil_append]
      simpa [andThen, parseFrom, hbuffer] using hsame
  · -- scanner, lexer and state machine
    obtain ⟨left',hscanned⟩ := scanned_scan hs.pending hs.complete hsolid hdelta' hanchored
    have hprocess := processItems_eq hengine.literals hscanned.chunks ⟨s.machine,s.buffer⟩
    have hfeed : engine.feed s delta ids =
        (⟨(engine.processScannerItems true (engine.scanner.scan s.deferred delta ids).1
            ⟨s.machine,s.buffer⟩).1.machine,
          (engine.processScannerItems true (engine.scanner.scan s.deferred delta ids).1
            ⟨s.machine,s.buffer⟩).1.buffer,(engine.scanner.scan s.deferred delta ids).2,true⟩,
          (engine.processScannerItems true (engine.scanner.scan s.deferred delta ids).1
            ⟨s.machine,s.buffer⟩).2) := by
      simp only [feed, hplain, hever, hprocess]
      rfl
    rw [hfeed]
    refine ⟨left',atomsOf (engine.scanner.scan s.deferred delta ids).1,hscanned.atoms,
      ⟨hscanned.pending,hscanned.complete,(fun h => by cases h)⟩,fun atoms => ?_⟩
    exact same_processScannerItems hengine.literals _ atoms ⟨s.machine,s.buffer⟩

theorem coalesce_finish (hengine : engine.NonEmpty) {s : State} (hs : Between s [] [])
    (hever : s.everHadTokenIds = true) : coalesce engine.joinEvents (engine.finish s) =
      coalesce engine.joinEvents (andThen (engine.parseFrom [] ⟨s.machine,s.buffer⟩) fun m =>
        (m,finishMachine m)).2 := by
  have hpending : flushPending s.deferred = [] := by
    rw [flushPending, hs.pending.terminals, hs.pending.settled rfl]
    rfl
  have hfinish : engine.finish s =
      (andThen (engine.processLexTokens true (engine.lexerShape.flush s.buffer).1 s.machine) fun m =>
        (m,finishMachine m)).2 := by
    simp [finish, hpending, hever, processScannerItems, andThen]
  rw [hfinish]
  exact ((same_flush hengine.literals s.buffer s.machine).andThen engine.joinAssoc .rfl).2

variable {stream : List ℕ}

/-- The merged events of the rest of a delivery are those of the atoms that are left. -/
theorem coalesce_deliver (hengine : engine.NonEmpty) (d : Delivery engine.decode stream)
    (hd : d.Anchored engine.scanner) {pre rest : List (List ℕ × Text)}
    (hsteps : d.steps = pre ++ rest) {s : State} {left emitted : List Atom}
    (hs : Between s left (Delivery.unread engine.decode pre))
    (hleft : emitted ++ left = engine.scanner.streamAtoms (pre.flatMap Prod.fst))
    (hever : s.everHadTokenIds = true ∨ rest.flatMap Prod.fst ≠ []) :
    coalesce engine.joinEvents (engine.deliver s rest) =
      coalesce engine.joinEvents (andThen (engine.parseFrom
        (left ++ engine.scanner.streamAtoms (rest.flatMap Prod.fst)) ⟨s.machine,s.buffer⟩) fun m =>
          (m,finishMachine m)).2 := by
  induction rest generalizing pre s left emitted with
  | nil =>
    rw [append_nil] at hsteps
    have hunread : Delivery.unread engine.decode pre = [] := by rw [← hsteps, d.unread_steps]
    have hnone := hs.complete hunread
    rw [hunread] at hs
    subst hnone
    exact coalesce_finish hengine hs (hever.resolve_right fun h => h rfl)
  | cons step rest ih =>
    have hsteps' : d.steps = pre ++ [step] ++ rest := by
      rw [hsteps, append_assoc]
      rfl
    have hpre : pre <+: d.steps := ⟨_,hsteps.symm⟩
    have hpre' : pre ++ [step] <+: d.steps := ⟨_,hsteps'.symm⟩
    have hids : (pre ++ [step]).flatMap Prod.fst = pre.flatMap Prod.fst ++ step.1 := by
      rw [flatMap_append, flatMap_singleton]
    have hatoms : emitted ++ (left ++ engine.scanner.streamAtoms step.1) =
        engine.scanner.streamAtoms ((pre ++ [step]).flatMap Prod.fst) := by
      rw [← append_assoc, hleft, hids, engine.scanner.streamAtoms_append]
    have hstream : engine.scanner.streamAtoms ((pre ++ [step]).flatMap Prod.fst) ++
        engine.scanner.streamAtoms (rest.flatMap Prod.fst) = engine.scanner.streamAtoms stream := by
      rw [← engine.scanner.streamAtoms_append, ← flatMap_append, ← hsteps', d.ids]
    have hsolid : Solid (left ++ engine.scanner.streamAtoms step.1) := by
      have hall := solid_streamAtoms hengine.specials
        ((pre ++ [step]).flatMap Prod.fst)
      rw [← hatoms] at hall
      exact hall.of_append_right
    -- the text of this step is what was held back and is not held back any more
    have hdelta : Delivery.unread engine.decode pre ++ step.1.flatMap engine.decode =
        step.2 ++ Delivery.unread engine.decode (pre ++ [step]) := by
      have hbefore := d.text_append_unread hpre
      have hafter := d.text_append_unread hpre'
      rw [hids, flatMap_append, flatMap_append, ← hbefore, flatMap_singleton,
        append_assoc, append_assoc] at hafter
      exact (append_cancel_left hafter).symm
    have hanchored : Anchored left (engine.scanner.streamAtoms step.1)
        (Delivery.unread engine.decode pre) (Delivery.unread engine.decode (pre ++ [step])) := by
      rcases hd pre step hpre' with haligned | ⟨hclear,hnodup,hcut⟩
      · exact .inl haligned
      · refine .inr ⟨?_,hnodup,?_⟩
        · have hall := solid_streamAtoms hengine.specials stream
          rw [← hstream, ← hatoms] at hclear hall
          exact (hclear.of_append_left hall).of_append_right hall.of_append_left
        · rw [← hatoms] at hcut
          exact hcut.of_append_right
    obtain ⟨left',emitted',hleft',hs',hsame⟩ := same_feed hengine hs hdelta hsolid hanchored
    have hever' : (engine.feed s step.2 step.1).1.everHadTokenIds = true ∨
        rest.flatMap Prod.fst ≠ [] := by
      have hflag : (engine.feed s step.2 step.1).1.everHadTokenIds =
          (s.everHadTokenIds || !step.1.isEmpty) := by
        unfold feed
        dsimp only
        split <;> rfl
      rw [hflag, Bool.or_eq_true]
      rcases hever with hever | hever
      · exact .inl (.inl hever)
      · by_cases hnil : step.1 = []
        · exact .inr (by simpa [hnil] using hever)
        · exact .inl (.inr (by simpa using hnil))
    have hrest := ih hsteps' hs' (by rw [append_assoc, hleft', hatoms]) hever'
    -- this call, then the rest
    have hfirst := (hsame (left' ++ engine.scanner.streamAtoms (rest.flatMap Prod.fst))).andThen
      engine.joinAssoc (f := fun m => (m,finishMachine m)) (g := fun m => (m,finishMachine m)) .rfl
    have hwhole : emitted' ++ (left' ++ engine.scanner.streamAtoms (rest.flatMap Prod.fst)) =
        left ++ engine.scanner.streamAtoms ((step :: rest).flatMap Prod.fst) := by
      rw [← append_assoc, hleft', flatMap_cons, engine.scanner.streamAtoms_append, append_assoc]
    rw [hwhole, andThen_assoc] at hfirst
    refine Eq.trans ?_ hfirst.2
    rw [deliver, coalesce_append engine.joinAssoc, hrest, ← coalesce_append engine.joinAssoc]
    rfl

def streamEvents (engine : StreamingParserEngine) (initial : Option ParserState) (stream : List ℕ) :
    List SemanticEvent :=
  (andThen (engine.parseFrom (engine.scanner.streamAtoms stream)
    ⟨(engine.initialState initial).machine,[]⟩) fun m => (m,finishMachine m)).2

theorem mergeEvents_deliver (hengine : engine.NonEmpty) (initial : Option ParserState)
    (hne : stream ≠ []) (d : Delivery engine.decode stream) (hd : d.Anchored engine.scanner) :
    engine.mergeEvents (engine.deliver (engine.initialState initial) d.steps) =
      engine.mergeEvents (engine.streamEvents initial stream) := by
  have hs : Between (engine.initialState initial) [] (Delivery.unread engine.decode []) :=
    ⟨⟨rfl,rfl,fun _ => rfl⟩,fun _ => rfl,fun _ => ⟨rfl,rfl⟩⟩
  have hdeliver := coalesce_deliver hengine d hd (List.nil_append d.steps).symm hs
    (append_nil _) (.inr (by rw [d.ids]; exact hne))
  rw [d.ids, List.nil_append] at hdeliver
  exact hdeliver

structure LiteralTokens (config : ParserEngineConfig) (tokenizer : Tokenizer) : Prop where
  terminals : ∀ t ∈ config.terminals, t.2 ≠ []
  tokenIdTerminals : ∀ t ∈ config.tokenIdTerminals, t.2 ≠ []
  specialTokens : ∀ e ∈ tokenizer.specialTokens.getD [], e.1 ≠ []
  decode_terminal : ∀ t ∈ config.tokenIdTerminals, ∀ tid, tokenizer.vocab.lookup t.2 = some tid →
    tokenizer.decode tid = t.2
  decode_special : ∀ e ∈ tokenizer.specialTokens.getD [], tokenizer.decode e.2 = e.1

theorem nonEmpty_init {config : ParserEngineConfig} {tokenizer : Tokenizer}
    (h : LiteralTokens config tokenizer) (patternLength : Text → ℕ) (skipToolParsing : Bool) :
    (init config tokenizer patternLength skipToolParsing).NonEmpty := by
  have hdrop (e : Text × ℕ) (he : e ∈ dropTokens config tokenizer) :
      e ∈ tokenizer.specialTokens.getD [] := mem_of_mem_filter he
  refine ⟨fun l hl => ?_,fun tid htid => ?_⟩
  · obtain ⟨t,ht,rfl⟩ := mem_map.mp ((mem_insertionSort _).mp hl)
    rcases mem_append.mp ht with ht | ht
    · exact h.terminals t ht
    · obtain ⟨text,htext,rfl⟩ := mem_map.mp ht
      obtain ⟨e,he,rfl⟩ := mem_map.mp (mem_dedup.mp htext)
      exact h.specialTokens e (hdrop e he)
  · -- each entry of the table has been set for a terminal or for a dropped token
    have hset {d : List (ℕ × String)} {k : ℕ} {v : String}
        (hd : ∀ e ∈ d, tokenizer.decode e.1 ≠ []) (hk : tokenizer.decode k ≠ []) :
        ∀ e ∈ setKey d k v, tokenizer.decode e.1 ≠ [] := by
      intro e he
      rcases mem_cons.mp he with rfl | he
      · exact hk
      · exact hd e (mem_of_mem_filter he)
    have htable : ∀ e ∈ (init config tokenizer patternLength skipToolParsing).resolvedTokenIds,
        tokenizer.decode e.1 ≠ [] := by
      refine List.foldlRecOn (motive := fun d : List (ℕ × String) =>
        ∀ e ∈ d, tokenizer.decode e.1 ≠ []) _ _ ?_ fun d hd e he => ?_
      · refine List.foldlRecOn (motive := fun d : List (ℕ × String) =>
          ∀ e ∈ d, tokenizer.decode e.1 ≠ []) _ _ (fun _ he => nomatch he) fun d hd t ht => ?_
        cases hlookup : tokenizer.vocab.lookup t.2 with
        | none => exact hd
        | some tid =>
          refine hset hd ?_
          rw [h.decode_terminal t ht tid hlookup]
          exact h.tokenIdTerminals t ht
      · refine hset hd ?_
        rw [h.decode_special e (hdrop e he)]
        exact h.specialTokens e (hdrop e he)
    obtain ⟨name,hname⟩ := Option.isSome_iff_exists.mp htid
    obtain ⟨l,l',heq,-⟩ := lookup_eq_some_iff.mp hname
    exact htable (tid,name) (by
      change (tid,name) ∈ (init config tokenizer patternLength skipToolParsing).scanner.tokenIdToTerminal
      rw [heq]
      simp)

/-- Delivery invariance: however a stream of tokens and its text are delivered, the merged events
are the same, if every step of the deliveries is anchored. -/
theorem delivery_invariant {config : ParserEngineConfig} {tokenizer : Tokenizer}
    (htokens : LiteralTokens config tokenizer) (patternLength : Text → ℕ) (skipToolParsing : Bool)
    (initial : Option ParserState) {stream : List ℕ} (hne : stream ≠ [])
    (d d' : Delivery tokenizer.decode stream)
    (hd : d.Anchored (init config tokenizer patternLength skipToolParsing).scanner)
    (hd' : d'.Anchored (init config tokenizer patternLength skipToolParsing).scanner) :
    (init config tokenizer patternLength skipToolParsing).mergeEvents
        ((init config tokenizer patternLength skipToolParsing).deliver
          ((init config tokenizer patternLength skipToolParsing).initialState initial) d.steps) =
      (init config tokenizer patternLength skipToolParsing).mergeEvents
        ((init config tokenizer patternLength skipToolParsing).deliver
          ((init config tokenizer patternLength skipToolParsing).initialState initial) d'.steps) := by
  have hengine := nonEmpty_init htokens patternLength skipToolParsing
  rw [mergeEvents_deliver hengine initial hne d hd, mergeEvents_deliver hengine initial hne d' hd']

def smallTokenizer : Tokenizer where
  vocab := [("<think>".toList,0),("</think>".toList,1),("<tool_call>".toList,2),
    ("</tool_call>".toList,3)]
  specialTokens := some [("<think>".toList,0),("</think>".toList,1),("<tool_call>".toList,2),
    ("</tool_call>".toList,3),("<|im_end|>".toList,4)]
  decode tid := match tid with
    | 0 => "<think>".toList
    | 1 => "</think>".toList
    | 2 | 6 => "<tool_call>".toList
    | 3 => "</tool_call>".toList
    | 4 => "<|im_end|>".toList
    | _ => "a".toList

def smallEngine : StreamingParserEngine := init (qwen3Config false) smallTokenizer List.length false

theorem literalTokens_small : LiteralTokens (qwen3Config false) smallTokenizer where
  terminals := by decide
  tokenIdTerminals := by decide
  specialTokens := by decide
  decode_terminal := by
    have hall : ∀ t ∈ (qwen3Config false).tokenIdTerminals,
        (smallTokenizer.vocab.lookup t.2).all (fun tid => smallTokenizer.decode tid = t.2) = true := by
      decide +kernel
    intro t ht tid htid
    have := hall t ht
    rw [htid] at this
    exact of_decide_eq_true this
  decode_special := by decide +kernel

def smallDelivery (stream : List ℕ) (steps : List (List ℕ × Text))
    (hids : steps.flatMap Prod.fst = stream)
    (htext : steps.flatMap Prod.snd = stream.flatMap smallTokenizer.decode)
    (hheld : ∀ pre ∈ steps.inits,
      pre.flatMap Prod.snd <+: (pre.flatMap Prod.fst).flatMap smallTokenizer.decode) :
    Delivery smallTokenizer.decode stream :=
  ⟨steps,hids,htext,fun pre hpre => hheld pre ((mem_inits _ _).mpr hpre)⟩

def lateDelivery : Delivery smallTokenizer.decode [5,2,5] :=
  smallDelivery _ [([5,2],"a".toList),([5],"<tool_call>a".toList)] (by decide) (by decide) (by decide)

def promptDelivery : Delivery smallTokenizer.decode [5,2,5] :=
  smallDelivery _ [([5],"a".toList),([2,5],"<tool_call>a".toList)] (by decide) (by decide) (by decide)

theorem clear_of_forall {atoms : List Atom} (hsolid : Solid atoms)
    (h : ∀ t ∈ specialsOf atoms, ∀ i < (textOf atoms).length, t.text <+: (textOf atoms).drop i →
      ∃ k < atoms.length, (textOf (atoms.take k)).length = i ∧
        (atoms[k]?.bind Atom.special?).any (fun t' => t'.text = t.text) = true) : Clear atoms := by
  intro t ht i hi
  have hlt : i < (textOf atoms).length := by
    have hlen := hi.length_le
    have hpos := length_pos_iff.mpr (hsolid t ht)
    rw [length_drop] at hlen
    omega
  obtain ⟨k,hk,hlen,hany⟩ := h t ht i hlt hi
  rw [getElem?_eq_getElem hk] at hany
  cases hatom : atoms[k] with
  | letter c =>
    rw [hatom] at hany
    cases hany
  | special t' =>
    rw [hatom] at hany
    refine ⟨atoms.take k,t',atoms.drop (k+1),?_,hlen,of_decide_eq_true hany⟩
    rw [← hatom, ← drop_eq_getElem_cons hk, take_append_drop]

theorem noCut_of_forall {atoms : List Atom} (h : ∀ t ∈ specialsOf atoms, t.terminal ≠ dropTerminal)
    (unread : Text) : NoCut atoms unread :=
  fun _ t _ heq hdrop => absurd hdrop (h t (mem_specialsOf_of_eq heq))

theorem anchored_of_forall {decode : ℕ → Text} {d : Delivery decode stream}
    {scanner : TokenIDScanner} (hclear : Clear (scanner.streamAtoms stream))
    (h : ∀ pre ∈ d.steps.inits, ∀ step ∈ d.steps,
      ((specialsOf (scanner.streamAtoms step.1)).map PreLexedTerminal.text).Nodup ∧
        ∀ t ∈ specialsOf (scanner.streamAtoms ((pre ++ [step]).flatMap Prod.fst)),
          t.terminal ≠ dropTerminal) : d.Anchored scanner := by
  intro pre step hpre
  have hstep : step ∈ d.steps := hpre.subset (mem_append_right _ (mem_singleton.mpr rfl))
  have hinit : pre ∈ d.steps.inits :=
    (mem_inits _ _).mpr ((prefix_append pre [step]).trans hpre)
  obtain ⟨hnodup,hdrop⟩ := h pre hinit step hstep
  exact .inr ⟨hclear,.inr hnodup,noCut_of_forall hdrop _⟩

theorem delivery_invariant_late :
    smallEngine.mergeEvents
        (smallEngine.deliver (smallEngine.initialState none) lateDelivery.steps) =
      smallEngine.mergeEvents
        (smallEngine.deliver (smallEngine.initialState none) promptDelivery.steps) := by
  have hclear : Clear (smallEngine.scanner.streamAtoms [5,2,5]) := by
    refine clear_of_forall ?_ (by decide +kernel)
    unfold Solid
    decide +kernel
  exact delivery_invariant literalTokens_small List.length false none (by decide) lateDelivery
    promptDelivery (anchored_of_forall hclear (by decide +kernel))
    (anchored_of_forall hclear (by decide +kernel))

/-- Three streams whose events depend on the delivery. A word that spells a special token hides it
when its text comes late. A special token that comes twice in a group is bound to the wrong place
when only its first text is there. And a dropped token cut in the middle comes out as text. -/
theorem delivery_varies :
    (∃ d d' : Delivery smallTokenizer.decode [6,2],
      smallEngine.mergeEvents (smallEngine.deliver (smallEngine.initialState none) d.steps) ≠
        smallEngine.mergeEvents (smallEngine.deliver (smallEngine.initialState none) d'.steps)) ∧
    (∃ d d' : Delivery smallTokenizer.decode [2,3,2,5],
      smallEngine.mergeEvents (smallEngine.deliver (smallEngine.initialState none) d.steps) ≠
        smallEngine.mergeEvents (smallEngine.deliver (smallEngine.initialState none) d'.steps)) ∧
    (∃ d d' : Delivery smallTokenizer.decode [5,4,5],
      smallEngine.mergeEvents (smallEngine.deliver (smallEngine.initialState none) d.steps) ≠
        smallEngine.mergeEvents (smallEngine.deliver (smallEngine.initialState none) d'.steps)) := by
  refine ⟨⟨smallDelivery _ [([6],"<tool_call>".toList),([2],"<tool_call>".toList)] ?_ ?_ ?_,
      smallDelivery _ [([6],[]),([2],"<tool_call><tool_call>".toList)] ?_ ?_ ?_,?_⟩,
    ⟨smallDelivery _ [([2,3,2,5],"<tool_call></tool_call><tool_call>a".toList)] ?_ ?_ ?_,
      smallDelivery _ [([2,3,2],"<tool_call>".toList),([5],"</tool_call><tool_call>a".toList)] ?_ ?_ ?_,
      ?_⟩,
    ⟨smallDelivery _ [([5,4,5],"a<|im_end|>a".toList)] ?_ ?_ ?_,
      smallDelivery _ [([5,4],"a<|".toList),([5],"im_end|>a".toList)] ?_ ?_ ?_,?_⟩⟩
  all_goals decide +kernel

end StreamingParserEngine

end MetaZenith.ParserEngine
