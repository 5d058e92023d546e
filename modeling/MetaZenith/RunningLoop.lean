import MetaZenith.SchedEffects

/-! The running loop of `schedule` with all its local variables: whom it visits, and what its
dictionaries and budgets hold when it ends. -/

namespace MetaZenith.Sched

open List Option

section Total

variable {κ V : Type} [DecidableEq κ] {d : AList fun _ : κ => V} {a : κ} {b : V}

def dictTotal (f : κ → V → ℤ) (d : AList fun _ : κ => V) : ℤ := (d.entries.map fun e => f e.1 e.2).sum

theorem dictTotal_insert (f : κ → V → ℤ) (b : V) (h : a ∉ d) :
    dictTotal f (d.insert a b) = f a b+dictTotal f d := by
  rw [dictTotal, AList.entries_insert_of_notMem h, map_cons, sum_cons]
  rfl

theorem dictTotal_erase (f : κ → V → ℤ) (h : d.lookup a = some b) :
    dictTotal f (d.erase a) = dictTotal f d-f a b := by
  have hmem : ⟨a,b⟩ ∈ d.entries := AList.mem_lookup_iff.mp h
  obtain ⟨b',l,l',-,hl,herase⟩ := exists_of_kerase (mem_keys_of_mem hmem)
  have hb : b' = b := by
    have hmem' : (⟨a,b'⟩ : Sigma fun _ : κ => V) ∈ d.entries := by
      rw [hl]
      exact mem_append_right _ mem_cons_self
    exact Option.some.inj ((AList.mem_lookup_iff.mpr hmem').symm.trans h)
  have hentries : (d.erase a).entries = l ++ l' := herase
  rw [dictTotal, dictTotal, hentries, hl, hb]
  simp only [map_append, sum_append, map_cons, sum_cons]
  ring

end Total

/-- The encoder's answers besides the collaborators' ones: the inputs it would run for the request
at hand, and the embeddings an input takes. -/
structure RunningEnv extends Environment where
  encoderInputs : ℕ → List ℕ := fun _ => []
  numEncoderEmbeds : ReqId → ℕ → ℕ := fun _ _ => 0

def RunningEnv.embeds (env : RunningEnv) (r : ReqId) (inputs : List ℕ) : ℤ :=
  (inputs.map fun i => (env.numEncoderEmbeds r i : ℤ)).sum

/-- The local variables of the loop. The last three record what happened: the requests visited, the
victims that had been visited but not scheduled, and the restored embeddings that were overwritten. -/
structure RunLoop where
  sched : Scheduler
  tokenBudget : ℤ
  encoderComputeBudget : ℤ
  reqIndex : ℕ := 0
  scheduledRunningReqs : List ReqId := []
  numScheduledTokens : AList (fun _ : ReqId => ℤ) := ∅
  scheduledSpecDecodeTokens : AList (fun _ : ReqId => ℕ) := ∅
  scheduledEncoderInputs : AList (fun _ : ReqId => List ℕ) := ∅
  preemptedReqs : List ReqId := []
  clock : ℕ := 0
  visited : List ReqId := []
  passedOver : List ReqId := []
  lostEmbeds : ℤ := 0

inductive RunExit
  | done | budget | selfPreempted
  deriving DecidableEq

namespace RunLoop

def tick (s : RunLoop) : RunLoop := { s with clock := s.clock+1 }

def takeBack (env : RunningEnv) (s : RunLoop) (v : ReqId) : RunLoop :=
  if v ∈ s.scheduledRunningReqs then
    { s with
      scheduledRunningReqs := s.scheduledRunningReqs.erase v
      tokenBudget := s.tokenBudget+(s.numScheduledTokens.lookup v).getD 0
      numScheduledTokens := s.numScheduledTokens.erase v
      scheduledSpecDecodeTokens := s.scheduledSpecDecodeTokens.erase v
      scheduledEncoderInputs := s.scheduledEncoderInputs.erase v
      encoderComputeBudget := s.encoderComputeBudget+
        env.embeds v ((s.scheduledEncoderInputs.lookup v).getD [])
      reqIndex := s.reqIndex-1 }
  else { s with passedOver := if v ∈ s.visited then s.passedOver ++ [v] else s.passedOver }

def putAway (cfg : Config) (s : RunLoop) (v : ReqId) (running : List ReqId) : RunLoop :=
  { s with
    sched := preempt cfg cfg.requiresKvDelivery { s.sched with running := running } v
    preemptedReqs := s.preemptedReqs ++ [v] }

def preemptVictim (cfg : Config) (env : RunningEnv) (s : RunLoop) : Option (ReqId × RunLoop) :=
  match cfg.policy with
  | .priority => (lowestPriority s.sched).map fun v =>
    (v,(s.takeBack env v).putAway cfg v (s.sched.running.erase v))
  | .fcfs => s.sched.running.getLast?.map fun v => (v,s.putAway cfg v s.sched.running.dropLast)

def allocate (cfg : Config) (env : RunningEnv) (r : ReqId) : ℕ → RunLoop → Option (RunLoop × Bool)
  | 0, _ => none
  | fuel+1, s =>
    if env.allocateSlots s.clock then some (s.tick,true)
    else (preemptVictim cfg env s.tick).bind fun (v,s') =>
      if v = r then some (s',false) else allocate cfg env r fuel s'

def passOver (s : RunLoop) (r : ReqId) : RunLoop :=
  { s with reqIndex := s.reqIndex+1, clock := s.clock+1, visited := s.visited ++ [r] }

/-- Schedule the request. The encoder budget to assign was computed from the budget before the
preemptions, `startBudget`. -/
def record (env : RunningEnv) (s : RunLoop) (r : ReqId) (q : Request) (n : ℤ) (inputs : List ℕ)
    (startBudget : ℤ) : RunLoop :=
  { s with
    sched := s.sched.modify r fun q => { q with numSpecTokenIds := 0 }
    scheduledRunningReqs := s.scheduledRunningReqs ++ [r]
    numScheduledTokens := s.numScheduledTokens.insert r n
    tokenBudget := s.tokenBudget-n
    reqIndex := s.reqIndex+1
    scheduledSpecDecodeTokens := if 0 < runningDrafts q n then
      s.scheduledSpecDecodeTokens.insert r (runningDrafts q n) else s.scheduledSpecDecodeTokens
    scheduledEncoderInputs := if inputs = [] then s.scheduledEncoderInputs
      else s.scheduledEncoderInputs.insert r inputs
    encoderComputeBudget := if inputs = [] then s.encoderComputeBudget
      else startBudget-env.embeds r inputs
    visited := s.visited ++ [r]
    lostEmbeds := if inputs = [] then s.lostEmbeds
      else s.lostEmbeds+(s.encoderComputeBudget-startBudget) }

def inputsFor (env : RunningEnv) (clock : ℕ) (q : Request) : List ℕ :=
  if q.hasEncoderInputs then env.encoderInputs clock else []

/-- `none` when the fuel does not suffice or a request is unknown. -/
def run (cfg : Config) (env : RunningEnv) (threshold : ℤ) (deferPrefills : Bool) :
    ℕ → RunLoop → Option (RunLoop × RunExit)
  | 0, _ => none
  | fuel+1, s =>
    if s.tokenBudget ≤ 0 then some (s,.budget)
    else match s.sched.running[s.reqIndex]? with
      | none => some (s,.done)
      | some r => (s.sched.requests r).bind fun q =>
        match runningCount cfg env.toEnvironment threshold s.tokenBudget deferPrefills
            s.sched.currentStep s.clock q with
        | none => run cfg env threshold deferPrefills fuel (s.passOver r)
        | some n => (allocate cfg env r (s.sched.running.length+1) s.tick).bind fun (s',ok) =>
          if ok then run cfg env threshold deferPrefills fuel
            (s'.record env r q n (inputsFor env s.clock q) s.encoderComputeBudget)
          else some (s',.selfPreempted)

structure Books (env : RunningEnv) (budget encoderBudget : ℤ) (s : RunLoop) : Prop where
  visited : ∀ x ∈ s.scheduledRunningReqs, x ∈ s.visited
  kept : ∀ x ∈ s.scheduledRunningReqs, x ∉ s.preemptedReqs
  nodup : s.scheduledRunningReqs.Nodup
  tokenKeys : ∀ x, x ∈ s.numScheduledTokens ↔ x ∈ s.scheduledRunningReqs
  specKeys : ∀ x ∈ s.scheduledSpecDecodeTokens, x ∈ s.scheduledRunningReqs
  inputKeys : ∀ x ∈ s.scheduledEncoderInputs, x ∈ s.scheduledRunningReqs
  tokens : s.tokenBudget+dictTotal (fun _ n => n) s.numScheduledTokens = budget
  inputs : s.encoderComputeBudget+dictTotal env.embeds s.scheduledEncoderInputs+s.lostEmbeds =
    encoderBudget

variable {cfg : Config} {env : RunningEnv} {budget encoderBudget : ℤ} {s s' : RunLoop} {r v : ReqId}
  {running : List ReqId}

section

variable (h : Books env budget encoderBudget s)

include h

theorem Books.tick : Books env budget encoderBudget s.tick :=
  ⟨h.visited,h.kept,h.nodup,h.tokenKeys,h.specKeys,h.inputKeys,h.tokens,h.inputs⟩

theorem Books.passOver (r : ReqId) : Books env budget encoderBudget (s.passOver r) :=
  ⟨fun x hx => mem_append_left _ (h.visited x hx),h.kept,h.nodup,h.tokenKeys,h.specKeys,
    h.inputKeys,h.tokens,h.inputs⟩

theorem Books.putAway (hv : v ∉ s.scheduledRunningReqs) :
    Books env budget encoderBudget (s.putAway cfg v running) := by
  refine ⟨h.visited,fun x hx hmem => ?_,h.nodup,h.tokenKeys,h.specKeys,h.inputKeys,h.tokens,h.inputs⟩
  rcases mem_append.mp hmem with hmem | hmem
  · exact h.kept x hx hmem
  · rw [mem_singleton.mp hmem] at hx
    exact hv hx

theorem Books.takeBack (v : ReqId) : Books env budget encoderBudget (s.takeBack env v) ∧
      v ∉ (s.takeBack env v).scheduledRunningReqs := by
  rw [RunLoop.takeBack]
  by_cases hv : v ∈ s.scheduledRunningReqs
  · rw [if_pos hv]
    have herase {x : ReqId} : x ∈ s.scheduledRunningReqs.erase v ↔
        x ≠ v ∧ x ∈ s.scheduledRunningReqs := h.nodup.mem_erase_iff
    refine ⟨⟨fun x hx => h.visited x (mem_of_mem_erase hx),
      fun x hx => h.kept x (mem_of_mem_erase hx),h.nodup.erase v,fun x => ?_,fun x hx => ?_,
      fun x hx => ?_,?_,?_⟩,h.nodup.not_mem_erase⟩
    · rw [AList.mem_erase, herase, h.tokenKeys]
    · obtain ⟨hne,hmem⟩ := AList.mem_erase.mp hx
      exact herase.mpr ⟨hne,h.specKeys x hmem⟩
    · obtain ⟨hne,hmem⟩ := AList.mem_erase.mp hx
      exact herase.mpr ⟨hne,h.inputKeys x hmem⟩
    · obtain ⟨n,hn⟩ := isSome_iff_exists.mp
        (AList.lookup_isSome.mpr ((h.tokenKeys v).mpr hv))
      have htokens := h.tokens
      simp only [hn, getD_some, dictTotal_erase _ hn]
      omega
    · have hinputs := h.inputs
      cases hlook : s.scheduledEncoderInputs.lookup v with
      | none =>
        have hsame : s.scheduledEncoderInputs.erase v = s.scheduledEncoderInputs := by
          refine AList.ext ?_
          exact kerase_of_notMem_keys (AList.lookup_eq_none.mp hlook)
        simp only [getD_none, hsame]
        rw [show env.embeds v [] = 0 from rfl]
        omega
      | some is =>
        simp only [getD_some, dictTotal_erase _ hlook]
        omega
  · rw [if_neg hv]
    exact ⟨⟨h.visited,h.kept,h.nodup,h.tokenKeys,h.specKeys,h.inputKeys,h.tokens,h.inputs⟩,hv⟩

theorem Books.record (q : Request) (n : ℤ) (inputs : List ℕ)
    (startBudget : ℤ) (hnew : r ∉ s.scheduledRunningReqs) (hkept : r ∉ s.preemptedReqs) :
    Books env budget encoderBudget (s.record env r q n inputs startBudget) := by
  have htokens : r ∉ s.numScheduledTokens := fun hmem => hnew ((h.tokenKeys r).mp hmem)
  have hinputs : r ∉ s.scheduledEncoderInputs := fun hmem => hnew (h.inputKeys r hmem)
  refine ⟨fun x hx => ?_,fun x hx => ?_,?_,fun x => ?_,fun x hx => ?_,fun x hx => ?_,?_,?_⟩
  · rcases mem_append.mp hx with hx | hx
    · exact mem_append_left _ (h.visited x hx)
    · exact mem_append_right _ hx
  · rcases mem_append.mp hx with hx | hx
    · exact h.kept x hx
    · rw [mem_singleton.mp hx]
      exact hkept
  · exact nodup_append.mpr ⟨h.nodup,nodup_singleton r,fun x hx y hy heq =>
      hnew (mem_singleton.mp hy ▸ heq ▸ hx)⟩
  · simp only [RunLoop.record, AList.mem_insert, h.tokenKeys, mem_append, mem_singleton]
    exact or_comm
  · simp only [RunLoop.record] at hx
    split at hx
    · rcases (AList.mem_insert _).mp hx with rfl | hx
      · exact mem_append_right _ mem_cons_self
      · exact mem_append_left _ (h.specKeys x hx)
    · exact mem_append_left _ (h.specKeys x hx)
  · simp only [RunLoop.record] at hx
    split at hx
    · exact mem_append_left _ (h.inputKeys x hx)
    · rcases (AList.mem_insert _).mp hx with rfl | hx
      · exact mem_append_right _ mem_cons_self
      · exact mem_append_left _ (h.inputKeys x hx)
  · have := h.tokens
    simp only [RunLoop.record, dictTotal_insert _ n htokens]
    omega
  · have := h.inputs
    simp only [RunLoop.record]
    by_cases hnil : inputs = []
    · simp only [if_pos hnil]
      exact this
    · simp only [if_neg hnil, dictTotal_insert _ inputs hinputs]
      omega

end

def survivors (s : RunLoop) : List ReqId := s.visited.filter fun x => x ∉ s.preemptedReqs

/-- The survivors stand, in their order, before the index, which exceeds their number by the victims
passed over. `current` is the request at hand while it is being allocated. -/
structure Visits (cfg : Config) (running : List ReqId) (s : RunLoop) (current : List ReqId) :
    Prop where
  remaining : s.sched.running = running.filter fun x => x ∉ s.preemptedReqs
  nodup : s.sched.running.Nodup
  known : ∀ x ∈ s.sched.running, (s.sched.requests x).isSome = true
  listed : ∀ x ∈ s.visited, x ∈ running
  once : (s.visited ++ current).Nodup
  before : (s.survivors ++ current).Sublist (s.sched.running.take (s.reqIndex+current.length))
  index : s.reqIndex = s.survivors.length+s.passedOver.length
  fcfs : cfg.policy = .fcfs → s.passedOver = []

theorem Visits.tick {current : List ReqId} (h : Visits cfg running s current) :
    Visits cfg running s.tick current :=
  ⟨h.remaining,h.nodup,h.known,h.listed,h.once,h.before,h.index,h.fcfs⟩

theorem Visits.mem_survivors {current : List ReqId} (h : Visits cfg running s current)
    (hv : v ∈ s.sched.running) : v ∈ s.survivors ↔ v ∈ s.visited := by
  rw [h.remaining, mem_filter] at hv
  rw [survivors, mem_filter]
  exact and_iff_left hv.2

theorem Visits.current_mem (h : Visits cfg running s [r]) : r ∈ s.sched.running :=
  mem_of_mem_take (h.before.mem (mem_append_right _ mem_cons_self))

theorem Visits.begin (h : Visits cfg running s []) (hr : s.sched.running[s.reqIndex]? = some r) :
    Visits cfg running s [r] := by
  have hbefore := h.before
  rw [append_nil, length_nil, Nat.add_zero] at hbefore
  have hmem := mem_of_getElem? hr
  have hnot : r ∉ s.sched.running.take s.reqIndex := by
    intro htake
    obtain ⟨i,hi,heq⟩ := mem_take_iff_getElem.mp htake
    obtain ⟨hlt,hget⟩ := List.getElem?_eq_some_iff.mp hr
    have := h.nodup.getElem_inj_iff.mp (heq.trans hget.symm)
    omega
  refine ⟨h.remaining,h.nodup,h.known,h.listed,?_,?_,h.index,h.fcfs⟩
  · have honce := h.once
    rw [append_nil] at honce
    refine nodup_append.mpr ⟨honce,nodup_singleton r,?_⟩
    rintro x hx y hy rfl
    rw [mem_singleton.mp hy] at hx
    exact hnot (hbefore.mem ((h.mem_survivors hmem).mpr hx))
  · rw [length_singleton, take_add_one, hr]
    exact hbefore.append (List.Sublist.refl _)

theorem Visits.finish (h : Visits cfg running s [r]) (hrun : s'.sched.running = s.sched.running)
    (hknown : ∀ x, (s.sched.requests x).isSome = true → (s'.sched.requests x).isSome = true)
    (hvisited : s'.visited = s.visited ++ [r]) (hindex : s'.reqIndex = s.reqIndex+1)
    (hpre : s'.preemptedReqs = s.preemptedReqs) (hover : s'.passedOver = s.passedOver) :
    Visits cfg running s' [] := by
  have hr := h.current_mem
  have hkept : r ∉ s.preemptedReqs := by
    rw [h.remaining, mem_filter] at hr
    exact of_decide_eq_true hr.2
  have hsurvivors : s'.survivors = s.survivors ++ [r] := by
    rw [survivors, hvisited, hpre, filter_append, filter_singleton, decide_eq_true hkept]
    rfl
  refine ⟨?_,?_,?_,?_,?_,?_,?_,?_⟩
  · rw [hrun, hpre]
    exact h.remaining
  · rw [hrun]
    exact h.nodup
  · intro x hx
    rw [hrun] at hx
    exact hknown x (h.known x hx)
  · intro x hx
    rw [hvisited] at hx
    rcases mem_append.mp hx with hx | hx
    · exact h.listed x hx
    · rw [mem_singleton.mp hx]
      rw [h.remaining] at hr
      exact (mem_filter.mp hr).1
  · rw [hvisited, append_nil]
    exact h.once
  · rw [hsurvivors, hrun, hindex, append_nil]
    exact h.before
  · rw [hsurvivors, hindex, hover, length_append, length_singleton, h.index]
    omega
  · rw [hover]
    exact h.fcfs

theorem erase_append_singleton {l : List ReqId} (hne : v ≠ r) :
    (l ++ [r]).erase v = l.erase v ++ [r] := by
  by_cases hv : v ∈ l
  · exact erase_append_left _ hv
  · rw [erase_append_right _ hv, erase_of_not_mem hv,
      erase_of_not_mem fun h => hne (mem_singleton.mp h)]

theorem erase_take_sublist (l : List ReqId) (k : ℕ) :
    ((l.take k).erase v).Sublist ((l.erase v).take k) := by
  by_cases hv : v ∈ l.take k
  · rw [← erase_take_of_mem hv]
    exact take_sublist_take_left (Nat.sub_le k 1)
  · have hsplit : l.erase v = l.take k ++ (l.drop k).erase v := by
      conv_lhs => rw [← take_append_drop k l, erase_append_right _ hv]
    rw [erase_of_not_mem hv, hsplit]
    have htake := take_sublist_take_left (l := l.take k ++ (l.drop k).erase v)
      (length_take_le k l)
    rwa [take_left] at htake

theorem filter_notMem_concat {l gone : List ReqId} (hn : (l.filter fun x => x ∉ gone).Nodup) :
    (l.filter fun x => x ∉ gone ++ [v]) = (l.filter fun x => x ∉ gone).erase v := by
  rw [hn.erase_eq_filter, List.filter_filter]
  refine List.filter_congr fun x _ => ?_
  rw [Bool.eq_iff_iff]
  simp [not_or, and_comm]

/-- One victim other than the request at hand goes: the survivors lose it, and the index follows
unless it had been passed over. -/
theorem Visits.victim (h : Visits cfg running s [r]) (hv : v ∈ s.sched.running) (hne : v ≠ r)
    (hrun : s'.sched.running = s.sched.running.erase v)
    (hknown : ∀ x, (s.sched.requests x).isSome = true → (s'.sched.requests x).isSome = true)
    (hvisited : s'.visited = s.visited) (hpre : s'.preemptedReqs = s.preemptedReqs ++ [v])
    (hcase : v ∈ s.visited ∧ s'.reqIndex = s.reqIndex-1 ∧ s'.passedOver = s.passedOver ∨
      v ∈ s.visited ∧ cfg.policy = .priority ∧ s'.reqIndex = s.reqIndex ∧
        s'.passedOver = s.passedOver ++ [v] ∨
      v ∉ s.visited ∧ s'.reqIndex = s.reqIndex ∧ s'.passedOver = s.passedOver) :
    Visits cfg running s' [r] := by
  have honce : s.visited.Nodup := (nodup_append.mp h.once).1
  have hsurv : s'.survivors = s.survivors.erase v := by
    rw [survivors, hvisited, hpre]
    exact filter_notMem_concat (honce.filter _)
  have hbefore : (s'.survivors ++ [r]).Sublist ((s.sched.running.take (s.reqIndex+1)).erase v) := by
    rw [hsurv, ← erase_append_singleton hne]
    exact h.before.erase v
  have htaken (hmem : v ∈ s.visited) : v ∈ s.sched.running.take (s.reqIndex+1) :=
    h.before.mem (mem_append_left _ ((h.mem_survivors hv).mpr hmem))
  have hlen (hmem : v ∈ s.visited) : s'.survivors.length+1 = s.survivors.length := by
    have hmem' := (h.mem_survivors hv).mpr hmem
    have hpos := length_pos_of_mem hmem'
    rw [hsurv, length_erase_of_mem hmem']
    omega
  refine ⟨?_,?_,?_,?_,?_,?_,?_,?_⟩
  · have hnodup := h.nodup
    rw [h.remaining] at hnodup
    rw [hrun, hpre, h.remaining, filter_notMem_concat hnodup]
  · rw [hrun]
    exact h.nodup.erase v
  · intro x hx
    rw [hrun] at hx
    exact hknown x (h.known x (mem_of_mem_erase hx))
  · rw [hvisited]
    exact h.listed
  · rw [hvisited]
    exact h.once
  · rw [hrun]
    rcases hcase with ⟨hmem,hindex,-⟩ | ⟨-,-,hindex,-⟩ | ⟨-,hindex,-⟩
    · have hpos := length_pos_of_mem ((h.mem_survivors hv).mpr hmem)
      have hidx := h.index
      rw [← erase_take_of_mem (htaken hmem)] at hbefore
      have heq : s'.reqIndex+1 = s.reqIndex+1-1 := by omega
      rw [length_singleton, heq]
      exact hbefore
    · rw [hindex]
      exact hbefore.trans (erase_take_sublist _ _)
    · rw [hindex]
      exact hbefore.trans (erase_take_sublist _ _)
  · have hidx := h.index
    rcases hcase with ⟨hmem,hindex,hover⟩ | ⟨hmem,-,hindex,hover⟩ | ⟨hnot,hindex,hover⟩
    · have := hlen hmem
      rw [hindex, hover]
      omega
    · have := hlen hmem
      rw [hindex, hover, length_append, length_singleton]
      omega
    · have hsame : s'.survivors = s.survivors := by
        rw [hsurv]
        exact erase_of_not_mem fun hmem => hnot ((h.mem_survivors hv).mp hmem)
      rw [hindex, hover, hsame]
      exact hidx
  · intro hp
    rcases hcase with ⟨-,-,hover⟩ | ⟨-,hpri,-⟩ | ⟨-,-,hover⟩
    · rw [hover]
      exact h.fcfs hp
    · rw [hp] at hpri
      cases hpri
    · rw [hover]
      exact h.fcfs hp

theorem Visits.last_unvisited (h : Visits cfg running s [r]) (hp : cfg.policy = .fcfs)
    (hlast : s.sched.running.getLast? = some v) : v ∉ s.visited := by
  intro hmem
  have hidx := h.index
  rw [h.fcfs hp, length_nil, Nat.add_zero] at hidx
  -- without victims passed over the survivors fill the list up to the index
  have htake : s.survivors ++ [r] = s.sched.running.take (s.reqIndex+1) := by
    refine h.before.eq_of_length_le ?_
    rw [length_take, length_append, length_singleton]
    omega
  have hlen := congrArg List.length htake
  rw [length_append, length_singleton, length_take] at hlen
  have hr : s.sched.running[s.reqIndex]? = some r := by
    rw [← getElem?_take_of_lt (Nat.lt_succ_self _), ← htake, hidx,
      getElem?_append_right le_rfl, Nat.sub_self]
    rfl
  have hfirst : s.survivors = s.sched.running.take s.reqIndex := by
    have hstep := htake
    rw [take_add_one, hr] at hstep
    exact append_cancel_right hstep
  refine getLast?_notMem_take h.nodup hlast hr ?_
  rw [← hfirst]
  exact (h.mem_survivors (mem_of_getLast? hlast)).mpr hmem

theorem isSome_modify {t : Scheduler} {f : Request → Request} {x : ReqId}
    (h : (t.requests x).isSome = true) : ((t.modify r f).requests x).isSome = true := by
  by_cases hx : x = r
  · subst hx
    rw [Scheduler.modify_requests_self, isSome_map]
    exact h
  · rw [Scheduler.modify_requests_of_ne _ _ hx]
    exact h

theorem takeBack_kept (env : RunningEnv) (s : RunLoop) (v : ReqId) :
    (s.takeBack env v).sched = s.sched ∧ (s.takeBack env v).visited = s.visited ∧
      (s.takeBack env v).preemptedReqs = s.preemptedReqs := by
  rw [takeBack]
  split <;> exact ⟨rfl,rfl,rfl⟩

theorem preemptVictim_spec (h : Visits cfg running s [r]) (hb : Books env budget encoderBudget s)
    (hp : preemptVictim cfg env s = some (v,s')) : v ∈ s.sched.running ∧
      s'.sched.running = s.sched.running.erase v ∧ s'.visited = s.visited ∧
      Books env budget encoderBudget s' ∧ (v ≠ r → Visits cfg running s' [r]) := by
  rw [preemptVictim] at hp
  split at hp
  · rename_i hpol
    obtain ⟨w,hw,heq⟩ := map_eq_some_iff.mp hp
    obtain ⟨rfl,rfl⟩ := Prod.mk.inj heq
    have hmem := lowestPriority_mem hw
    obtain ⟨hback,hgone⟩ := hb.takeBack w
    obtain ⟨hsched,hvisited,hpre⟩ := takeBack_kept env s w
    refine ⟨hmem,rfl,hvisited,hback.putAway hgone,fun hne => h.victim hmem hne rfl ?_ hvisited ?_ ?_⟩
    · intro x hx
      rw [← hsched] at hx
      exact isSome_modify (t := { (s.takeBack env w).sched with
        running := s.sched.running.erase w }) hx
    · exact congrArg (· ++ [w]) hpre
    · -- scheduled, passed over or not yet visited
      by_cases hscheduled : w ∈ s.scheduledRunningReqs
      · refine .inl ⟨hb.visited w hscheduled,?_,?_⟩ <;>
          simp [putAway, takeBack, if_pos hscheduled]
      · by_cases hseen : w ∈ s.visited
        · refine .inr (.inl ⟨hseen,hpol,?_,?_⟩) <;>
            simp [putAway, takeBack, if_neg hscheduled, if_pos hseen]
        · refine .inr (.inr ⟨hseen,?_,?_⟩) <;>
            simp [putAway, takeBack, if_neg hscheduled, if_neg hseen]
  · rename_i hpol
    obtain ⟨w,hw,heq⟩ := map_eq_some_iff.mp hp
    obtain ⟨rfl,rfl⟩ := Prod.mk.inj heq
    have hmem := mem_of_getLast? hw
    have hunseen := h.last_unvisited hpol hw
    have hdrop := dropLast_eq_erase h.nodup hw
    refine ⟨hmem,hdrop,rfl,hb.putAway fun hscheduled => hunseen (hb.visited w hscheduled),
      fun hne => h.victim hmem hne hdrop ?_ rfl rfl (.inr (.inr ⟨hunseen,rfl,rfl⟩))⟩
    intro x hx
    exact isSome_modify (t := { s.sched with running := s.sched.running.dropLast }) hx

theorem exists_victim (h : r ∈ s.sched.running) : ∃ v s', preemptVictim cfg env s = some (v,s') := by
  have hsome : (preemptVictim cfg env s).isSome = true := by
    rw [preemptVictim]
    split
    · cases hrun : s.sched.running with
      | nil =>
        rw [hrun] at h
        exact absurd h not_mem_nil
      | cons a l =>
        rw [lowestPriority, hrun]
        rfl
    · rw [isSome_map, getLast?_isSome]
      exact ne_nil_of_mem h
  obtain ⟨⟨v,s'⟩,hp⟩ := isSome_iff_exists.mp hsome
  exact ⟨v,s',hp⟩

theorem allocate_spec (fuel : ℕ) (h : Visits cfg running s [r])
    (hb : Books env budget encoderBudget s) (hf : s.sched.running.length < fuel) :
    ∃ s' ok, allocate cfg env r fuel s = some (s',ok) ∧ s'.visited = s.visited ∧
      Books env budget encoderBudget s' ∧ (ok = true → Visits cfg running s' [r]) := by
  induction fuel generalizing s with
  | zero => omega
  | succ fuel ih =>
    rw [allocate]
    by_cases halloc : env.allocateSlots s.clock = true
    · rw [if_pos halloc]
      exact ⟨_,_,rfl,rfl,hb.tick,fun _ => h.tick⟩
    rw [if_neg halloc]
    obtain ⟨v,s',hp⟩ : ∃ v s', preemptVictim cfg env s.tick = some (v,s') :=
      exists_victim h.tick.current_mem
    obtain ⟨hmem,hrun,hvisited,hb',h'⟩ := preemptVictim_spec h.tick hb.tick hp
    simp only [hp, bind_some]
    by_cases hv : v = r
    · rw [if_pos hv]
      exact ⟨_,_,rfl,hvisited,hb',fun hfalse => nomatch hfalse⟩
    · rw [if_neg hv]
      have hshorter : s'.sched.running.length < fuel := by
        have hlen := length_erase_of_mem hmem
        have hpos := length_pos_of_mem hmem
        rw [hrun, hlen]
        change s.sched.running.length-1 < fuel
        change 0 < s.sched.running.length at hpos
        omega
      obtain ⟨t,ok,ht,htv,hrest⟩ := ih (h' hv) hb' hshorter
      exact ⟨t,ok,ht,htv.trans hvisited,hrest⟩

theorem Visits.unscheduled (h : Visits cfg running s [r]) (hb : Books env budget encoderBudget s) :
    r ∉ s.scheduledRunningReqs ∧ r ∉ s.preemptedReqs := by
  constructor
  · intro hmem
    exact (nodup_append.mp h.once).2.2 r (hb.visited r hmem) r mem_cons_self rfl
  · have hr := h.current_mem
    rw [h.remaining] at hr
    exact of_decide_eq_true (mem_filter.mp hr).2

theorem run_spec (threshold : ℤ) (deferPrefills : Bool) (fuel : ℕ) (h : Visits cfg running s [])
    (hb : Books env budget encoderBudget s) (hf : running.length < fuel+s.visited.length) :
    ∃ t exit, run cfg env threshold deferPrefills fuel s = some (t,exit) ∧
      Books env budget encoderBudget t ∧
      (exit = .done → Visits cfg running t [] ∧ t.sched.running.length ≤ t.reqIndex) := by
  induction fuel generalizing s with
  | zero =>
    have honce := h.once
    rw [append_nil] at honce
    have hle := (honce.subperm h.listed).length_le
    omega
  | succ fuel ih =>
    rw [run]
    by_cases hbudget : s.tokenBudget ≤ 0
    · rw [if_pos hbudget]
      exact ⟨_,_,rfl,hb,fun hexit => nomatch hexit⟩
    rw [if_neg hbudget]
    cases hr : s.sched.running[s.reqIndex]? with
    | none => exact ⟨_,_,rfl,hb,fun _ => ⟨h,getElem?_eq_none_iff.mp hr⟩⟩
    | some r =>
      have hcur := h.begin hr
      obtain ⟨q,hq⟩ := isSome_iff_exists.mp (h.known r hcur.current_mem)
      simp only [hq, bind_some]
      cases hcount : runningCount cfg env.toEnvironment threshold s.tokenBudget deferPrefills
          s.sched.currentStep s.clock q with
      | none =>
        refine ih (hcur.finish rfl (fun _ hx => hx) rfl rfl rfl rfl) (hb.passOver r) ?_
        simp only [passOver, length_append, length_singleton]
        omega
      | some n =>
        obtain ⟨s',ok,halloc,hvisited,hb',h'⟩ := allocate_spec (s.sched.running.length+1) hcur.tick hb.tick
          (Nat.lt_succ_self _)
        simp only [halloc, bind_some]
        cases ok with
        | false => exact ⟨_,_,rfl,hb',fun hexit => nomatch hexit⟩
        | true =>
          have hcur' := h' rfl
          obtain ⟨hnew,hkept⟩ := hcur'.unscheduled hb'
          refine ih (hcur'.finish rfl (fun x hx => isSome_modify hx) rfl rfl rfl rfl)
            (hb'.record q n _ _ hnew hkept) ?_
          simp only [record, hvisited, tick, length_append, length_singleton]
          omega

structure Correct (env : RunningEnv) (running : List ReqId) (budget encoderBudget : ℤ) (t : RunLoop)
    (exit : RunExit) : Prop where
  visits : exit = .done → t.survivors = running.filter fun x => x ∉ t.preemptedReqs
  tokens : t.tokenBudget = budget-dictTotal (fun _ n => n) t.numScheduledTokens
  dropped : ∀ x ∈ t.preemptedReqs, x ∉ t.numScheduledTokens ∧ x ∉ t.scheduledSpecDecodeTokens ∧
    x ∉ t.scheduledEncoderInputs
  inputs : t.encoderComputeBudget = encoderBudget-dictTotal env.embeds t.scheduledEncoderInputs

theorem Visits.survivors_eq_iff {t : RunLoop} (h : Visits cfg running t []) :
    (t.survivors = running.filter fun x => x ∉ t.preemptedReqs) ↔
      t.reqIndex = t.sched.running.length+t.passedOver.length := by
  have hsub := h.before
  rw [append_nil] at hsub
  have hsub' := hsub.trans (take_sublist _ _)
  have hidx := h.index
  rw [← h.remaining]
  constructor
  · intro heq
    rw [heq] at hidx
    exact hidx
  · intro heq
    exact hsub'.eq_of_length (by omega)

def twoPriorities : Config := { fourRequests 32 0 with policy := .priority }

def oneLowest (computed : ℤ) (hasEncoderInputs : Bool) (running : List ReqId) : Scheduler where
  running := running
  requests r := some
    { requestId := r, promptTokenIds := [1], maxTokens := 8, status := .running
      hasEncoderInputs := hasEncoderInputs
      priority := if r = 0 then 5 else 0
      numComputedTokens := if r = 0 then computed else 0 }

end RunLoop

end MetaZenith.Sched
