import Mathlib

/-! A machine that reads items and writes outputs, compared up to joining neighbours in the output.
Joining is partial and associative, so an output may be cut anywhere before it is joined. -/

namespace MetaZenith.Transducer

universe u v w

section Joining

variable {ε : Type u} (join : ε → ε → Option ε)

structure JoinAssoc : Prop where
  none : ∀ a b c ab, join a b = some ab → join b c = none → join ab c = none
  some : ∀ a b c ab bc, join a b = some ab → join b c = some bc →
    ∃ abc, join ab c = some abc ∧ join a bc = some abc

def joinCons (e : ε) : List ε → List ε
  | [] => [e]
  | e' :: rest =>
    match join e e' with
    | some joined => joined :: rest
    | none => e :: e' :: rest

def coalesce (l : List ε) : List ε := l.foldr (joinCons join) []

variable {join}

theorem joinCons_joinCons (hjoin : JoinAssoc join) {a b ab : ε} (h : join a b = some ab)
    (l : List ε) : joinCons join a (joinCons join b l) = joinCons join ab l := by
  cases l with
  | nil => simp [joinCons, h]
  | cons c rest =>
    cases hbc : join b c with
    | none => simp [joinCons, hbc, h, hjoin.none a b c ab h hbc]
    | some bc =>
      obtain ⟨abc,habc,ha⟩ := hjoin.some a b c ab bc h hbc
      simp [joinCons, hbc, habc, ha]

theorem foldr_joinCons (hjoin : JoinAssoc join) (e : ε) (l rest : List ε) :
    (joinCons join e l).foldr (joinCons join) rest =
      joinCons join e (l.foldr (joinCons join) rest) := by
  cases l with
  | nil => rfl
  | cons e' l =>
    cases h : join e e' with
    | none => simp [joinCons, h]
    | some joined =>
      rw [List.foldr_cons, joinCons_joinCons hjoin h]
      simp [joinCons, h]

theorem foldr_coalesce (hjoin : JoinAssoc join) (l rest : List ε) :
    (coalesce join l).foldr (joinCons join) rest = l.foldr (joinCons join) rest := by
  induction l with
  | nil => rfl
  | cons e l ih =>
    change (joinCons join e (coalesce join l)).foldr (joinCons join) rest = _
    rw [foldr_joinCons hjoin, ih, List.foldr_cons]

theorem coalesce_append (hjoin : JoinAssoc join) (l l' : List ε) :
    coalesce join (l ++ l') = coalesce join (coalesce join l ++ coalesce join l') := by
  have hback : coalesce join (coalesce join l') = coalesce join l' := foldr_coalesce hjoin l' []
  rw [coalesce, List.foldr_append, coalesce, List.foldr_append]
  change l.foldr (joinCons join) (coalesce join l') =
    (coalesce join l).foldr (joinCons join) (coalesce join (coalesce join l'))
  rw [hback, foldr_coalesce hjoin]

end Joining

section Runs

variable {σ : Type u} {ι : Type v} {ε : Type w}

def transduce (step : ι → σ → σ × List ε) : List ι → σ → σ × List ε
  | [], s => (s,[])
  | i :: is, s => ((transduce step is (step i s).1).1,(step i s).2 ++ (transduce step is (step i s).1).2)

@[simp]
theorem transduce_nil (step : ι → σ → σ × List ε) (s : σ) : transduce step [] s = (s,[]) := rfl

variable {τ : Type u} {υ : Type u}

def andThen (r : σ × List ε) (next : σ → τ × List ε) : τ × List ε :=
  ((next r.1).1,r.2 ++ (next r.1).2)

theorem transduce_cons (step : ι → σ → σ × List ε) (i : ι) (is : List ι) (s : σ) :
    transduce step (i :: is) s = andThen (step i s) (transduce step is) := rfl

@[simp]
theorem transduce_singleton (step : ι → σ → σ × List ε) (i : ι) (s : σ) :
    transduce step [i] s = step i s := by
  simp [transduce]

@[simp]
theorem andThen_nil (s : σ) (next : σ → τ × List ε) : andThen (s,[]) next = next s := rfl

theorem andThen_assoc (r : σ × List ε) (f : σ → τ × List ε) (g : τ → υ × List ε) :
    andThen (andThen r f) g = andThen r fun s => andThen (f s) g := by
  simp [andThen, List.append_assoc]

theorem transduce_append (step : ι → σ → σ × List ε) (is is' : List ι) (s : σ) :
    transduce step (is ++ is') s = andThen (transduce step is s) (transduce step is') := by
  induction is generalizing s with
  | nil => rfl
  | cons i is ih =>
    rw [List.cons_append, transduce_cons, transduce_cons, andThen_assoc]
    exact congrArg (andThen (step i s)) (funext ih)

variable {join : ε → ε → Option ε}

def Same (join : ε → ε → Option ε) (r r' : σ × List ε) : Prop :=
  r.1 = r'.1 ∧ coalesce join r.2 = coalesce join r'.2

theorem Same.rfl {r : σ × List ε} : Same join r r := ⟨Eq.refl _,Eq.refl _⟩

theorem Same.trans {r r' r'' : σ × List ε} (h : Same join r r') (h' : Same join r' r'') :
    Same join r r'' := ⟨h.1.trans h'.1,h.2.trans h'.2⟩

theorem Same.andThen (hjoin : JoinAssoc join) {r r' : σ × List ε} {f g : σ → τ × List ε}
    (h : Same join r r') (hnext : Same join (f r'.1) (g r'.1)) :
    Same join (andThen r f) (andThen r' g) := by
  obtain ⟨hstate,hout⟩ := h
  refine ⟨?_,?_⟩
  · change (f r.1).1 = (g r'.1).1
    rw [hstate, hnext.1]
  · change coalesce join (r.2 ++ (f r.1).2) = coalesce join (r'.2 ++ (g r'.1).2)
    rw [coalesce_append hjoin, hstate, hout, hnext.2, ← coalesce_append hjoin]

theorem Same.transduce (hjoin : JoinAssoc join) {κ : Type*} {step : ι → σ → σ × List ε}
    {step' : κ → σ → σ × List ε} (expand : ι → List κ)
    (h : ∀ i s, Same join (step i s) (transduce step' (expand i) s)) (is : List ι) (s : σ) :
    Same join (transduce step is s) (transduce step' (is.flatMap expand) s) := by
  induction is generalizing s with
  | nil => exact .rfl
  | cons i is ih =>
    rw [List.flatMap_cons, transduce_cons, transduce_append]
    exact (h i s).andThen hjoin (ih _)

end Runs

section Accepting

variable {σ : Type u} {τ : Type u} {ι : Type v} {ε : Type w} {α : Type*}

def Accepted (accept : α → ε → Option α) (good : σ → Prop) (view : σ → α) (a : α)
    (r : σ × List ε) : Prop :=
  good r.1 ∧ r.2.foldlM accept a = some (view r.1)

variable {accept : α → ε → Option α} {good : σ → Prop} {view : σ → α}

theorem Accepted.andThen {good' : τ → Prop} {view' : τ → α} {a : α} {r : σ × List ε}
    {next : σ → τ × List ε} (h : Accepted accept good view a r)
    (hnext : ∀ s, good s → Accepted accept good' view' (view s) (next s)) :
    Accepted accept good' view' a (andThen r next) := by
  obtain ⟨hgood,hout⟩ := hnext r.1 h.1
  refine ⟨hgood,?_⟩
  change (r.2 ++ (next r.1).2).foldlM accept a = _
  rw [List.foldlM_append, h.2]
  exact hout

theorem Accepted.transduce {step : ι → σ → σ × List ε}
    (h : ∀ i s, good s → Accepted accept good view (view s) (step i s)) (is : List ι) (s : σ)
    (hs : good s) : Accepted accept good view (view s) (transduce step is s) := by
  induction is generalizing s with
  | nil => exact ⟨hs,rfl⟩
  | cons i is ih => exact (h i s hs).andThen ih

end Accepting

end MetaZenith.Transducer
