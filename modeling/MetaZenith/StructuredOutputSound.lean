import MetaZenith.StructuredOutput
import MetaZenith.GuardedRuns

/-! Every token that a masked sampler emits is one the grammar takes. -/

namespace MetaZenith.StructuredOutput

open List Option Option

variable {rows : List Row} {all drafts new tokens : List ℤ} {marker : ℤ} {p : ReasoningParser}

variable {S : Type*} {A : Acceptor S ℤ}

/-- What a sampler may emit for a window: each token is allowed by its row, and a token is followed
by another one only if it is the draft of its position. -/
def Emits : List Row → List ℤ → List ℤ → Prop
  | _, _, [] => True
  | [], _, _ :: _ => False
  | row :: rows, drafts, token :: rest => token ≠ -1 ∧ row token = true ∧
      (rest = [] ∨ (drafts.head? = some token ∧ Emits rows drafts.tail rest))

@[simp] theorem emits_nil (rows : List Row) (drafts : List ℤ) : Emits rows drafts [] := by
  cases rows <;> trivial

theorem Emits.take {out : List ℤ} (h : Emits rows drafts out) (n : ℕ) :
    Emits rows drafts (out.take n) := by
  induction out generalizing rows drafts n with
  | nil => simp
  | cons token rest ih =>
    cases n with
    | zero => simp
    | succ n =>
      cases rows with
      | nil => exact h.elim
      | cons row rows =>
        obtain ⟨htoken,hrow,hnext⟩ := h
        refine ⟨htoken, hrow, ?_⟩
        rcases hnext with rfl | ⟨hdraft,hrest⟩
        · exact .inl (by simp)
        · exact .inr ⟨hdraft, ih hrest n⟩

section Round

variable {detect : Option ReasoningParser} {simulated : List ℤ} {token : ℤ} {w w' : Window S}

theorem advanceBy_cases (token : ℤ) (w : Window S) :
    (isTerminated A w.grammar = true ∧ advanceBy A token w = some w) ∨
      (isTerminated A w.grammar = false ∧
        ((∃ m, w.grammar.acceptToken A token = some m ∧ advanceBy A token w =
            some { w with grammar := m, stateAdvancements := w.stateAdvancements+1 }) ∨
          (w.grammar.acceptToken A token = none ∧
            advanceBy A token w = if w.postReasoningEndInWindow then some w else none))) := by
  unfold advanceBy acceptTokens
  cases hterm : isTerminated A w.grammar with
  | true => exact .inl ⟨rfl, rfl⟩
  | false =>
    refine .inr ⟨rfl, ?_⟩
    cases hm : w.grammar.acceptToken A token with
    | some m => exact .inl ⟨m, rfl, by simp [Matcher.acceptLoop, hm]⟩
    | none => exact .inr ⟨rfl, by simp [Matcher.acceptLoop, hm]⟩

/-- A round without a marker either ends the mask, advances the grammar or does nothing. -/
theorem windowRound_cases (h : windowRound A detect simulated token w = some w') :
    (token = -1 ∧ w' = { w with applyBitmask := false }) ∨
      (token ≠ -1 ∧ w.applyBitmask = true ∧ advanceBy A token w = some w') ∨
      (token ≠ -1 ∧ w.applyBitmask = false ∧ (w' = w ∨
        ∃ p, detect = some p ∧ p.isReasoningEndStreaming simulated [token] = true ∧
          w' = { w with applyBitmask := true, postReasoningEndInWindow := true })) := by
  unfold windowRound at h
  by_cases ht : token = -1
  · rw [if_pos ht] at h
    exact .inl ⟨ht, (some.inj h).symm⟩
  · rw [if_neg ht] at h
    refine .inr ?_
    cases happly : w.applyBitmask with
    | true =>
      refine .inl ⟨ht, rfl, ?_⟩
      cases detect <;> simpa [happly] using h
    | false =>
      refine .inr ⟨ht, rfl, ?_⟩
      cases detect with
      | none => exact .inl (by simpa [happly] using h.symm)
      | some p =>
        simp only [happly, Bool.false_eq_true, if_false] at h
        split at h
        · rename_i hend
          exact .inr ⟨p, rfl, hend, (some.inj h).symm⟩
        · exact .inl (some.inj h).symm

theorem windowRound_rollback (h : windowRound A detect simulated token w = some w') :
    w'.grammar.rollback w'.stateAdvancements = w.grammar.rollback w.stateAdvancements := by
  rcases windowRound_cases h with ⟨-,rfl⟩ | ⟨-,-,hadv⟩ | ⟨-,-,rfl | ⟨p,-,-,rfl⟩⟩
  · rfl
  · rcases advanceBy_cases (A := A) token w with ⟨-,heq⟩ | ⟨-,⟨m,hm,heq⟩ | ⟨-,heq⟩⟩
    · rw [← some.inj (heq.symm.trans hadv)]
    · rw [← some.inj (heq.symm.trans hadv)]
      exact Matcher.rollback_acceptToken hm _
    · rw [heq] at hadv
      rw [← some.inj (ite_none_right_eq_some.mp hadv).2]
  · rfl
  · rfl

end Round

section Loop

variable {detect : Option ReasoningParser}

/-- An invariant of the drafts still to come that every round keeps, without failing, shows that the
loop does not fail. -/
theorem windowLoop_isSome {P : List ℤ → Window S → Prop}
    (hround : ∀ simulated token rest w, P (token :: rest) w →
      ∃ w', windowRound A detect simulated token w = some w' ∧ P rest w')
    (before drafts : List ℤ) (w : Window S) (h : P drafts w) :
    ∃ rows w', windowLoop A detect before drafts w = some (rows, w') := by
  induction drafts generalizing before w with
  | nil => exact ⟨[], w, rfl⟩
  | cons token rest ih =>
    obtain ⟨w',hw',hP⟩ := hround (before ++ [token]) token rest w h
    obtain ⟨rows,w'',hloop⟩ := ih (before ++ [token]) w' hP
    refine ⟨fillBitmask A w.grammar w.applyBitmask :: rows, w'', ?_⟩
    simp [windowLoop, hw', hloop]

theorem windowLoop_cons {before rest : List ℤ} {token : ℤ} {w w'' : Window S}
    (h : windowLoop A detect before (token :: rest) w = some (rows, w'')) :
    ∃ w' rows', windowRound A detect (before ++ [token]) token w = some w' ∧
      windowLoop A detect (before ++ [token]) rest w' = some (rows', w'') ∧
      rows = fillBitmask A w.grammar w.applyBitmask :: rows' := by
  simp only [windowLoop] at h
  split at h
  · cases h
  · rename_i w' hw'
    obtain ⟨⟨rows',w₁⟩,hrest,heq⟩ := map_eq_some_iff.mp h
    obtain ⟨hrows,rfl⟩ := Prod.mk.inj heq
    exact ⟨w', rows', hw', hrest, hrows.symm⟩

theorem windowLoop_rollback {before : List ℤ} {w w' : Window S}
    (h : windowLoop A detect before drafts w = some (rows, w')) :
    w'.grammar.rollback w'.stateAdvancements = w.grammar.rollback w.stateAdvancements := by
  induction drafts generalizing before w rows with
  | nil =>
    obtain ⟨-,rfl⟩ := Prod.mk.inj (some.inj h)
    rfl
  | cons token rest ih =>
    obtain ⟨w₁,rows',hround,hloop,-⟩ := windowLoop_cons h
    rw [ih hloop, windowRound_rollback hround]

def Fits (A : Acceptor S ℤ) : Matcher S → List ℤ → Prop
  | _, [] => True
  | m, t :: ts => t = -1 ∨ ∃ m', m.acceptToken A t = some m' ∧ Fits A m' ts

theorem fits_padding (m : Matcher S) (n : ℕ) : Fits A m (List.replicate n (-1)) := by
  cases n with
  | zero => trivial
  | succ n => exact .inl rfl

theorem length_validateTokens_le (m : Matcher S) (drafts : List ℤ) :
    (validateTokens A m drafts).length ≤ drafts.length := by
  unfold validateTokens
  induction drafts generalizing m with
  | nil => exact le_rfl
  | cons t ts ih =>
    unfold Matcher.acceptedPrefix
    cases m.acceptToken A t with
    | some m' => exact Nat.succ_le_succ (ih m')
    | none => exact Nat.zero_le _

theorem fits_validateTokens (m : Matcher S) (drafts : List ℤ) (n : ℕ) :
    Fits A m (validateTokens A m drafts ++ List.replicate n (-1)) := by
  unfold validateTokens
  induction drafts generalizing m with
  | nil => exact fits_padding m n
  | cons t ts ih =>
    unfold Matcher.acceptedPrefix
    cases hm : m.acceptToken A t with
    | some m' => exact .inr ⟨m', hm, ih m'⟩
    | none => exact fits_padding m n

/-- With a mask from the start, fitting drafts raise no `AssertionError`. -/
theorem windowLoop_isSome_of_fits (before drafts : List ℤ) (g : Matcher S) (h : Fits A g drafts) :
    ∃ rows w', windowLoop A none before drafts ⟨g, true, 0, false⟩ = some (rows, w') := by
  -- once the mask is off or the grammar has terminated, nothing is advanced any more
  apply windowLoop_isSome (P := fun drafts w => w.applyBitmask = false ∨
    isTerminated A w.grammar = true ∨ Fits A w.grammar drafts)
  · intro simulated token rest w hw
    by_cases ht : token = -1
    · exact ⟨{ w with applyBitmask := false }, by simp [windowRound, ht], .inl rfl⟩
    · cases happly : w.applyBitmask with
      | false => exact ⟨w, by simp [windowRound, ht, happly], .inl happly⟩
      | true =>
        have hround : windowRound A none simulated token w = advanceBy A token w := by
          simp [windowRound, ht, happly]
        rw [hround]
        rcases advanceBy_cases (A := A) token w with ⟨hdone,heq⟩ | ⟨hterm,hcase⟩
        · exact ⟨w, heq, .inr (.inl hdone)⟩
        · rw [happly, hterm] at hw
          obtain hfit : Fits A w.grammar (token :: rest) := by simpa using hw
          obtain ⟨m',hm',hrest⟩ := hfit.resolve_left ht
          rcases hcase with ⟨m,hm,heq⟩ | ⟨hnone,-⟩
          · obtain rfl : m' = m := some.inj (hm'.symm.trans hm)
            exact ⟨_, heq, .inr (.inr hrest)⟩
          · cases hm'.symm.trans hnone
  · exact .inr (.inr h)

/-- When reasoning is going on at the start, no draft raises an `AssertionError`. -/
theorem windowLoop_isSome_of_reasoning (before drafts : List ℤ) (g : Matcher S) :
    ∃ rows w', windowLoop A detect before drafts ⟨g, false, 0, false⟩ = some (rows, w') := by
  -- the mask is only switched on together with the tolerance for rejected drafts
  apply windowLoop_isSome (P := fun _ w => w.applyBitmask = true → w.postReasoningEndInWindow = true)
  · intro simulated token rest w hw
    unfold windowRound
    by_cases ht : token = -1
    · exact ⟨_, if_pos ht, fun h => by cases h⟩
    · rw [if_neg ht]
      have hadv : w.applyBitmask = true → ∃ w', advanceBy A token w = some w' ∧
          (w'.applyBitmask = true → w'.postReasoningEndInWindow = true) := by
        intro happly
        rcases advanceBy_cases (A := A) token w with ⟨-,heq⟩ | ⟨-,⟨m,-,heq⟩ | ⟨-,heq⟩⟩
        · exact ⟨w, heq, hw⟩
        · exact ⟨_, heq, hw⟩
        · rw [if_pos (hw happly)] at heq
          exact ⟨w, heq, hw⟩
      cases detect with
      | none =>
        dsimp only
        split
        · exact hadv ‹_›
        · exact ⟨w, rfl, hw⟩
      | some p =>
        dsimp only
        split
        · exact hadv ‹_›
        · split
          · exact ⟨_, rfl, fun _ => rfl⟩
          · exact ⟨w, rfl, hw⟩
  · intro h
    cases h

end Loop

section Emission

variable {detect : Option ReasoningParser} {before drafts out : List ℤ} {w w' : Window S}
  {rows bonus : List Row}

def BonusRow (A : Acceptor S ℤ) (w : Window S) (bonus : List Row) : Prop :=
  bonus = [] ∨ ∃ fill, bonus = [fillBitmask A w.grammar (fill || w.applyBitmask)]

theorem takes_of_row {g : Matcher S} {token : ℤ} (h : fillBitmask A g true token = true) :
    A.terminated g.state = true ∨ ∃ s', A.accept g.state token = some s' := by
  unfold fillBitmask at h
  cases hterm : isTerminated A g with
  | true => exact .inl hterm
  | false =>
    simp only [hterm, Bool.not_false, Bool.and_self, if_true] at h
    exact .inr (isSome_iff_exists.mp h)

/-- While the mask is applied, the emitted tokens are taken by the grammar. The induction is on the
drafts: a token that is not the last one equals its draft, by which the grammar was advanced. -/
theorem takes_of_emits (hloop : windowLoop A detect before drafts w = some (rows, w'))
    (happly : w.applyBitmask = true) (hbonus : BonusRow A w' bonus)
    (hem : Emits (rows ++ bonus) drafts out) : A.TakesUntilTerminated w.grammar.state out := by
  induction drafts generalizing before w rows out with
  | nil =>
    obtain ⟨rfl,rfl⟩ := Prod.mk.inj (some.inj hloop)
    cases out with
    | nil => trivial
    | cons token rest =>
      rcases hbonus with rfl | ⟨fill,rfl⟩
      · exact hem.elim
      · obtain ⟨-,hrow,hnext⟩ := hem
        rw [happly, Bool.or_true] at hrow
        obtain rfl : rest = [] := hnext.resolve_right fun h => by cases h.1
        rcases takes_of_row hrow with hdone | ⟨s',hs'⟩
        · exact .inl hdone
        · exact .inr ⟨s', hs', trivial⟩
  | cons draft drafts ih =>
    obtain ⟨w₁,rows',hround,hrest,rfl⟩ := windowLoop_cons hloop
    cases out with
    | nil => trivial
    | cons token rest =>
      obtain ⟨hpad,hrow,hnext⟩ := hem
      rw [happly] at hrow
      by_cases hterm : A.terminated w.grammar.state = true
      · exact .inl hterm
      · obtain ⟨s',hs'⟩ := (takes_of_row hrow).resolve_left hterm
        refine .inr ⟨s', hs', ?_⟩
        rcases hnext with rfl | ⟨hdraft,hem'⟩
        · trivial
        · obtain rfl : draft = token := some.inj hdraft
          rcases windowRound_cases hround with ⟨hneg,-⟩ | ⟨-,-,hadv⟩ | ⟨-,hoff,-⟩
          · exact absurd hneg hpad
          · rcases advanceBy_cases (A := A) draft w with ⟨hdone,heq⟩ | ⟨-,⟨m,hm,heq⟩ | ⟨hnone,-⟩⟩
            · exact absurd hdone hterm
            · obtain rfl := some.inj (heq.symm.trans hadv)
              have hstate := (Matcher.acceptToken_eq_some.mp hm).1
              rw [some.inj (hs'.symm.trans hstate)]
              exact ih hrest happly hem'
            · simp [Matcher.acceptToken, hs'] at hnone
          · rw [happly] at hoff
            cases hoff

def afterMarker (marker : ℤ) : List ℤ → List ℤ
  | [] => []
  | t :: ts => if t = marker then ts else afterMarker marker ts

theorem afterMarker_suffix (marker : ℤ) (tokens : List ℤ) : afterMarker marker tokens <:+ tokens := by
  induction tokens with
  | nil => exact suffix_rfl
  | cons t ts ih =>
    unfold afterMarker
    split
    · exact suffix_cons t ts
    · exact ih.trans (suffix_cons t ts)

theorem length_afterMarker_lt (h : marker ∈ tokens) :
    (afterMarker marker tokens).length < tokens.length := by
  induction tokens with
  | nil => cases h
  | cons t ts ih =>
    unfold afterMarker
    split
    · simp
    · rename_i ht
      have hlt := ih ((mem_cons.mp h).resolve_left (Ne.symm ht))
      simp only [length_cons]
      omega

def DetectsMarker (p : ReasoningParser) (marker : ℤ) : Prop :=
  ∀ before delta, p.isReasoningEndStreaming before delta = decide (marker ∈ delta)

/-- While reasoning goes on, the tokens emitted after the marker are taken by the grammar: a token
that is followed by another one is a draft, so the loop has seen the same marker. -/
theorem takes_afterMarker (hp : DetectsMarker p marker)
    (hloop : windowLoop A (some p) before drafts w = some (rows, w'))
    (happly : w.applyBitmask = false) (hbonus : BonusRow A w' bonus)
    (hem : Emits (rows ++ bonus) drafts out) :
    A.TakesUntilTerminated w.grammar.state (afterMarker marker out) := by
  induction drafts generalizing before w rows out with
  | nil =>
    obtain ⟨rfl,rfl⟩ := Prod.mk.inj (some.inj hloop)
    cases out with
    | nil => trivial
    | cons token rest =>
      -- the bonus token is the last one
      cases bonus with
      | nil => exact hem.elim
      | cons row bonus =>
        obtain ⟨-,-,hnext⟩ := hem
        obtain rfl : rest = [] := hnext.resolve_right fun h => by cases h.1
        unfold afterMarker
        split <;> trivial
  | cons draft drafts ih =>
    obtain ⟨w₁,rows',hround,hrest,rfl⟩ := windowLoop_cons hloop
    cases out with
    | nil => trivial
    | cons token rest =>
      obtain ⟨hpad,-,hnext⟩ := hem
      rcases hnext with rfl | ⟨hdraft,hem'⟩
      · unfold afterMarker
        split <;> trivial
      · obtain rfl : draft = token := some.inj hdraft
        have hround' : windowRound A (some p) (before ++ [draft]) draft w =
            if draft = marker then
              some { w with applyBitmask := true, postReasoningEndInWindow := true }
            else some w := by
          simp only [windowRound, if_neg hpad, happly, Bool.false_eq_true, if_false, hp _ _,
            mem_singleton, decide_eq_true_eq]
          exact if_congr eq_comm rfl rfl
        rw [hround'] at hround
        unfold afterMarker
        split
        · rename_i hmarker
          rw [if_pos hmarker] at hround
          obtain rfl := some.inj hround
          have htakes := takes_of_emits hrest rfl hbonus hem'
          exact htakes
        · rename_i hmarker
          rw [if_neg hmarker] at hround
          obtain rfl := some.inj hround
          exact ih hrest happly hem'

end Emission

section PerRequest

variable {cfg : Config} {r : Request S}

def Config.waits (cfg : Config) : Bool := cfg.reasoner.isSome && !cfg.enableInReasoning

def Request.masked (cfg : Config) (r : Request S) : Bool :=
  !cfg.waits || r.reasoningEnded == some true

def Request.settled (cfg : Config) (r : Request S) : Request S := (shouldFillBitmask cfg r).2

theorem waits_eq_true : cfg.waits = true ↔ ∃ p, cfg.reasoner = some p ∧ cfg.enableInReasoning = false := by
  unfold Config.waits
  rw [Bool.and_eq_true, isSome_iff_exists, Bool.not_eq_true']
  exact ⟨fun ⟨⟨p,hp⟩,he⟩ => ⟨p, hp, he⟩, fun ⟨p,hp,he⟩ => ⟨⟨p, hp⟩, he⟩⟩

theorem shouldFillBitmask_of_not_waits (h : cfg.waits = false) :
    shouldFillBitmask cfg r = (true, r) := by
  unfold shouldFillBitmask
  cases hreasoner : cfg.reasoner with
  | none => rfl
  | some p => simp_all [Config.waits]

def Request.endedBy (p : ReasoningParser) (r : Request S) : Bool :=
  r.reasoningEnded.getD (p.isReasoningEnd r.promptTokenIds)

theorem shouldFillBitmask_of_waits (hp : cfg.reasoner = some p)
    (he : cfg.enableInReasoning = false) : shouldFillBitmask cfg r =
      (r.endedBy p, { r with reasoningEnded := some (r.endedBy p) }) := by
  unfold shouldFillBitmask Request.endedBy
  simp only [hp, he, Bool.false_eq_true, if_false]
  cases r with
  | mk _ _ _ _ _ ended _ => cases ended <;> rfl

theorem settled_eq (cfg : Config) (r : Request S) :
    r.settled cfg = { r with reasoningEnded := (r.settled cfg).reasoningEnded } := by
  unfold Request.settled
  cases hw : cfg.waits with
  | false => rw [shouldFillBitmask_of_not_waits hw]
  | true =>
    obtain ⟨p,hp,he⟩ := waits_eq_true.mp hw
    rw [shouldFillBitmask_of_waits hp he]

/-- `should_fill_bitmask` answers whether the request it leaves is masked, and a second call changes
nothing. -/
theorem shouldFillBitmask_eq (cfg : Config) (r : Request S) :
    shouldFillBitmask cfg r = ((r.settled cfg).masked cfg, r.settled cfg) ∧
      shouldFillBitmask cfg (r.settled cfg) = ((r.settled cfg).masked cfg, r.settled cfg) := by
  unfold Request.masked Request.settled
  cases hw : cfg.waits with
  | false =>
    rw [shouldFillBitmask_of_not_waits hw]
    exact ⟨rfl, shouldFillBitmask_of_not_waits hw⟩
  | true =>
    obtain ⟨p,hp,he⟩ := waits_eq_true.mp hw
    have hb : ∀ x : Bool, (!true || (some x == some true)) = x := by decide
    rw [shouldFillBitmask_of_waits hp he]
    refine ⟨by rw [hb], ?_⟩
    rw [shouldFillBitmask_of_waits hp he, hb]
    rfl

theorem settled_of_isSome (h : r.reasoningEnded.isSome) : r.settled cfg = r := by
  unfold Request.settled
  cases hw : cfg.waits with
  | false => rw [shouldFillBitmask_of_not_waits hw]
  | true =>
    obtain ⟨p,hp,he⟩ := waits_eq_true.mp hw
    obtain ⟨ended,hended⟩ := isSome_iff_exists.mp h
    rw [shouldFillBitmask_of_waits hp he, Request.endedBy, hended, getD_some, ← hended]

theorem settled_isSome (hw : cfg.waits = true) : (r.settled cfg).reasoningEnded.isSome := by
  obtain ⟨p,hp,he⟩ := waits_eq_true.mp hw
  rw [Request.settled, shouldFillBitmask_of_waits hp he]
  rfl

def WindowFits (A : Acceptor S ℤ) (cfg : Config) (r : Request S) (drafts : List ℤ) : Prop :=
  (r.settled cfg).masked cfg = true → Fits A r.grammar drafts

/-- The rows of a request and what is left behind: no `AssertionError`, and nothing changes but the
decision that reasoning has ended in the prompt. -/
theorem requestBitmask_spec (h : WindowFits A cfg r drafts) :
    ∃ rows w bonus, requestBitmask A cfg r drafts = some (rows ++ bonus, r.settled cfg) ∧
      windowLoop A (if (r.settled cfg).masked cfg then none else cfg.reasoner) r.allTokenIds drafts
        ⟨r.grammar, (r.settled cfg).masked cfg, 0, false⟩ = some (rows, w) ∧ BonusRow A w bonus := by
  obtain ⟨hfill,hfill'⟩ := shouldFillBitmask_eq cfg r
  have hset := settled_eq cfg r
  have hgrammar : (r.settled cfg).grammar = r.grammar := by rw [hset]
  have hall : (r.settled cfg).allTokenIds = r.allTokenIds := by rw [hset]
  -- the detector is used exactly when the mask does not apply yet
  have hdetect : (if !(r.settled cfg).masked cfg && !cfg.enableInReasoning then cfg.reasoner
      else none) = if (r.settled cfg).masked cfg then none else cfg.reasoner := by
    cases hm : (r.settled cfg).masked cfg with
    | true => rfl
    | false =>
      have hw : cfg.waits = true := by
        by_contra hw
        rw [Request.masked, Bool.not_eq_true _ |>.mp hw] at hm
        cases hm
      obtain ⟨p,-,he⟩ := waits_eq_true.mp hw
      simp [he]
  have hloop : ∃ rows w, windowLoop A (if (r.settled cfg).masked cfg then none else cfg.reasoner)
      r.allTokenIds drafts ⟨r.grammar, (r.settled cfg).masked cfg, 0, false⟩ = some (rows, w) := by
    cases hm : (r.settled cfg).masked cfg with
    | true => exact windowLoop_isSome_of_fits _ _ _ (h hm)
    | false => exact windowLoop_isSome_of_reasoning _ _ _
  obtain ⟨rows,w,hrows⟩ := hloop
  have hback := windowLoop_rollback hrows
  refine ⟨rows, w, if cfg.isDiffusion && !drafts.isEmpty then []
    else [fillBitmask A w.grammar ((r.settled cfg).masked cfg || w.applyBitmask)], ?_, hrows, ?_⟩
  · simp only [requestBitmask, hfill, hgrammar, hall, hdetect, hrows, hfill']
    have hrestored : (if 0 < w.stateAdvancements then w.grammar.rollback w.stateAdvancements
        else w.grammar) = r.grammar := by
      split
      · exact hback
      · rename_i hzero
        rw [Nat.eq_zero_of_not_pos hzero] at hback
        exact hback
    rw [hrestored, ← hgrammar, ← hall]
  · split
    · exact .inl rfl
    · exact .inr ⟨_, rfl⟩

theorem shouldAdvance_cases (cfg : Config) (r : Request S) (new : List ℤ) :
    ((cfg.waits = false ∨ r.reasoningEnded = some true) ∧ shouldAdvance cfg r new = (true, r)) ∨
      ∃ p, cfg.reasoner = some p ∧ cfg.enableInReasoning = false ∧ r.reasoningEnded ≠ some true ∧
        shouldAdvance cfg r new =
          if p.isReasoningEndStreaming r.allTokenIds (deltaIds r new) then
            (true, { r with
              reasoningEnded := some true
              reasoningEndTokenIndex :=
                some (findReasoningEndIndex p r.allTokenIds (deltaStart r new)) })
          else (false, r) := by
  unfold shouldAdvance Config.waits
  cases hp : cfg.reasoner with
  | none => exact .inl ⟨.inl rfl, rfl⟩
  | some p =>
    cases he : cfg.enableInReasoning with
    | true => exact .inl ⟨.inl rfl, rfl⟩
    | false =>
      by_cases hended : r.reasoningEnded = some true
      · exact .inl ⟨.inr hended, by simp [hended]⟩
      · exact .inr ⟨p, rfl, rfl, hended, by simp [hended]⟩

theorem findReasoningEndLoop_spec (hp : DetectsMarker p marker) (before : List ℤ) (idx : ℕ)
    (tokens : List ℤ) : findReasoningEndLoop p before idx tokens =
      if marker ∈ tokens then some (idx+tokens.length-(afterMarker marker tokens).length-1)
      else none := by
  induction tokens generalizing before idx with
  | nil => rfl
  | cons t ts ih =>
    have hlen := (afterMarker_suffix marker ts).length_le
    simp only [findReasoningEndLoop, hp _ _, mem_singleton, decide_eq_true_eq, afterMarker]
    by_cases ht : marker = t
    · rw [if_pos ht, if_pos (by simp [ht]), if_pos ht.symm]
      simp only [length_cons]
      congr 1
      omega
    · rw [if_neg ht, if_neg (Ne.symm ht), ih]
      by_cases hmem : marker ∈ ts
      · rw [if_pos hmem, if_pos (by simp [hmem])]
        simp only [length_cons]
        congr 1
        omega
      · rw [if_neg hmem, if_neg (by simp [ht, hmem])]

theorem keptTokens_eq_take (stops : List ℤ → Bool) (all out : List ℤ) :
    ∃ n, keptTokens stops all out = out.take n := by
  induction out generalizing all with
  | nil => exact ⟨0, rfl⟩
  | cons t ts ih =>
    unfold keptTokens
    split
    · exact ⟨1, by simp⟩
    · obtain ⟨n,hn⟩ := ih (all ++ [t])
      exact ⟨n+1, by rw [hn, take_succ_cons]⟩

theorem trim_of_before (hall : r.allTokenIds = all ++ new)
    (h : ∀ e, r.reasoningEndTokenIndex = some e → e < all.length) :
    trimReasoningForAdvance r new = new := by
  unfold trimReasoningForAdvance
  cases he : r.reasoningEndTokenIndex with
  | none => rfl
  | some e =>
    have hlt := h e he
    simp only [hall, length_append]
    rw [if_pos (by push_cast; omega)]

/-- The end of reasoning found among the new tokens trims them to what follows the marker. -/
theorem trim_of_marker (hp : DetectsMarker p marker) (hmem : marker ∈ new)
    (hall : r.allTokenIds = all ++ new)
    (he : r.reasoningEndTokenIndex = some (findReasoningEndIndex p (all ++ new) all.length)) :
    trimReasoningForAdvance r new = afterMarker marker new := by
  have hlt := length_afterMarker_lt hmem
  have hsuffix := (suffix_iff_eq_drop.mp (afterMarker_suffix marker new)).symm
  have hidx : findReasoningEndIndex p (all ++ new) all.length =
      all.length+new.length-(afterMarker marker new).length-1 := by
    unfold findReasoningEndIndex
    rw [take_left, drop_left, findReasoningEndLoop_spec hp, if_pos hmem, getD_some]
  unfold trimReasoningForAdvance
  simp only [he, hidx, hall, length_append]
  rw [if_neg (by push_cast; omega)]
  refine Eq.trans ?_ hsuffix
  congr 1
  omega

theorem findsTerminated_of_acceptAdvance {ts : List ℤ}
    (htakes : A.TakesUntilTerminated r.grammar.state ts)
    (hreject : (acceptAdvance A r ts).1 = some (tokens, false)) :
    A.FindsTerminated r.grammar.state tokens := by
  unfold acceptAdvance at hreject
  by_cases hts : ts = []
  · rw [if_pos hts] at hreject
    cases hreject
  · rw [if_neg hts] at hreject
    obtain ⟨rfl,hrej⟩ := Prod.mk.inj (some.inj hreject)
    unfold acceptTokens at hrej
    by_cases hterm : isTerminated A r.grammar = true
    · obtain ⟨t,ts,rfl⟩ := exists_cons_of_ne_nil hts
      exact ⟨[], t, ts, r.grammar.state, rfl, rfl, hterm⟩
    · rw [if_neg hterm] at hrej
      exact Matcher.findsTerminated_of_acceptLoop htakes hrej

/-- How a request is advanced by tokens `new` that follow its history `all`: by all of them when the
mask applied from the start, by what follows the marker when reasoning was going on. -/
theorem advanceGrammar_cases (hp : ∀ p, cfg.reasoner = some p → DetectsMarker p marker)
    (hall : r.allTokenIds = all ++ new)
    (hindex : ∀ e, r.reasoningEndTokenIndex = some e → e < all.length) :
    (advanceGrammar A cfg r new).1 = none ∨
      (r.masked cfg = true ∧ advanceGrammar A cfg r new = acceptAdvance A r new) ∨
      (r.masked cfg = false ∧ ∃ r', r'.grammar = r.grammar ∧
        advanceGrammar A cfg r new = acceptAdvance A r' (afterMarker marker new)) := by
  unfold advanceGrammar
  by_cases hnew : new = []
  · exact .inl (by rw [if_pos hnew])
  rw [if_neg hnew]
  rcases shouldAdvance_cases cfg r new with ⟨hmode,heq⟩ | ⟨p,hreasoner,he,hended,heq⟩
  · refine .inr (.inl ⟨?_, ?_⟩)
    · unfold Request.masked
      rcases hmode with hw | hended
      · simp [hw]
      · simp [hended]
    · have htrim := trim_of_before hall hindex
      simp [heq, htrim]
  · have hstart : deltaStart r new = all.length := by
      unfold deltaStart
      rw [if_pos hnew, hall, length_append, Nat.add_sub_cancel]
    have hdelta : deltaIds r new = new := if_pos hnew
    by_cases hmem : marker ∈ new
    · refine .inr (.inr ⟨?_, { r with
        reasoningEnded := some true
        reasoningEndTokenIndex := some (findReasoningEndIndex p r.allTokenIds all.length) }, rfl, ?_⟩)
      · rw [Request.masked, waits_eq_true.mpr ⟨p, hreasoner, he⟩]
        simpa using hended
      · have htrim := trim_of_marker (hp p hreasoner) hmem (r := { r with
          reasoningEnded := some true
          reasoningEndTokenIndex := some (findReasoningEndIndex p r.allTokenIds all.length) }) hall
          (by rw [hall])
        simp [heq, hstart, hp p hreasoner _ _, hdelta, hmem, htrim]
    · refine .inl ?_
      simp [heq, hp p hreasoner _ _, hdelta, hmem]

/-- What is given to `accept_tokens` after a window is taken by the grammar until it terminates. -/
theorem rejected_after_termination (hp : ∀ p, cfg.reasoner = some p → DetectsMarker p marker)
    (hindex : ∀ e, r.reasoningEndTokenIndex = some e → e < r.allTokenIds.length)
    (hfits : WindowFits A cfg r drafts) {r' : Request S}
    (hrows : requestBitmask A cfg r drafts = some (rows, r')) {out : List ℤ}
    (hem : Emits rows drafts out) (stops : List ℤ → Bool)
    (hreject : (updateFromOutput A cfg r' stops out).1 = some (tokens, false)) :
    A.FindsTerminated r'.grammar.state tokens := by
  obtain ⟨rows₀,w,bonus,hrows',hloop,hbonus⟩ := requestBitmask_spec hfits
  obtain ⟨rfl,rfl⟩ := Prod.mk.inj (some.inj (hrows'.symm.trans hrows))
  have hset := settled_eq cfg r
  have hgrammar : (r.settled cfg).grammar = r.grammar := by rw [hset]
  have hindex' : ∀ e, (r.settled cfg).reasoningEndTokenIndex = some e →
      e < (r.settled cfg).allTokenIds.length := by
    rw [hset]
    exact hindex
  obtain ⟨n,hn⟩ := keptTokens_eq_take stops (r.settled cfg).allTokenIds out
  unfold updateFromOutput at hreject
  set new := keptTokens stops (r.settled cfg).allTokenIds out
  have hemNew : Emits (rows₀ ++ bonus) drafts new := hn ▸ hem.take n
  set r₁ : Request S := { r.settled cfg with
    allTokenIds := (r.settled cfg).allTokenIds ++ new } with hr₁
  have hmasked : r₁.masked cfg = (r.settled cfg).masked cfg := rfl
  rcases advanceGrammar_cases (A := A) hp (r := r₁) rfl hindex' with
    hnone | ⟨hm,heq⟩ | ⟨hm,r₂,hg,heq⟩
  · rw [hnone] at hreject
    cases hreject
  · -- the mask applied from the first row on
    rw [← hmasked, hm] at hloop
    rw [heq] at hreject
    have htakes := takes_of_emits hloop rfl hbonus hemNew
    rw [← hgrammar] at htakes
    exact findsTerminated_of_acceptAdvance (r := r₁) htakes hreject
  · -- reasoning was going on
    rw [← hmasked, hm] at hloop
    rw [heq] at hreject
    have hw : cfg.waits = true := by
      by_contra hw
      rw [Request.masked, Bool.not_eq_true _ |>.mp hw] at hm
      cases hm
    obtain ⟨p,hreasoner,-⟩ := waits_eq_true.mp hw
    simp only [Bool.false_eq_true, if_false, hreasoner] at hloop
    have htakes := takes_afterMarker (hp p hreasoner) hloop rfl hbonus hemNew
    have hstate : r₂.grammar.state = r.grammar.state := by
      rw [hg, ← hgrammar]
    rw [← hstate] at htakes
    have hfinds := findsTerminated_of_acceptAdvance htakes hreject
    rw [hgrammar, ← hstate]
    exact hfinds

end PerRequest

end MetaZenith.StructuredOutput
