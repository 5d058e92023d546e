import Mathlib

/-! Runs of a partial step function in which every step meets a side condition. -/

namespace MetaZenith

universe u v

variable {σ : Type u} {ε : Type v}

inductive Reachable (step : σ → ε → Option σ) (ok : σ → ε → σ → Prop) (init : σ) : σ → Prop
  | init : Reachable step ok init init
  | step {s s' : σ} {e : ε} (h : Reachable step ok init s) (hstep : step s e = some s')
      (hok : ok s e s') : Reachable step ok init s'

variable {s s' : σ} {f : σ → ε → Option σ} {l : List ε}

namespace Reachable

variable {step : σ → ε → Option σ} {ok : σ → ε → σ → Prop} {init : σ}

theorem invariant {P : σ → Prop} (hinit : P init)
    (hpres : ∀ s e s', P s → step s e = some s' → ok s e s' → P s') (h : Reachable step ok init s) :
    P s := by
  induction h with
  | init => exact hinit
  | step _ hstep hok ih => exact hpres _ _ _ ih hstep hok

theorem mono {ok' : σ → ε → σ → Prop} (hok : ∀ s e s', ok s e s' → ok' s e s')
    (h : Reachable step ok init s) : Reachable step ok' init s := by
  induction h with
  | init => exact .init
  | step _ hstep hguard ih => exact ih.step hstep (hok _ _ _ hguard)

end Reachable

def runGuarded (step : σ → ε → Option σ) (check : σ → ε → σ → Bool) : σ → List ε → Option σ
  | s, [] => some s
  | s, e :: es => (step s e).bind fun s' =>
      if check s e s' then runGuarded step check s' es else none

theorem Reachable.of_runGuarded {step : σ → ε → Option σ} {ok : σ → ε → σ → Prop}
    {check : σ → ε → σ → Bool} (hcheck : ∀ s e s', check s e s' = true → ok s e s') {init : σ}
    {es : List ε} (hs : Reachable step ok init s) (h : runGuarded step check s es = some s') :
    Reachable step ok init s' := by
  induction es generalizing s with
  | nil =>
    cases h
    exact hs
  | cons e es ih =>
    obtain ⟨t,ht,hrest⟩ := Option.bind_eq_some_iff.mp h
    split at hrest
    · rename_i hok
      exact ih (hs.step ht (hcheck _ _ _ hok)) hrest
    · cases hrest

/-- A list of events that leads to a state where `p` holds. -/
theorem Reachable.exists_of_runGuarded (step : σ → ε → Option σ) {ok : σ → ε → σ → Prop}
    {check : σ → ε → σ → Bool} (hcheck : ∀ s e s', check s e s' = true → ok s e s')
    (init : σ) (es : List ε) (p : σ → Bool) (h : (runGuarded step check init es).any p = true) :
    ∃ s, Reachable step ok init s ∧ p s = true := by
  obtain ⟨s,hs,hp⟩ := (Option.any_eq_true ..).mp h
  exact ⟨s,.of_runGuarded hcheck .init hs,hp⟩

theorem foldlM_option_invariant {P : List ε → σ → Prop}
    (hstep : ∀ done a t t', done ++ [a] <+: l → P done t →
      f t a = some t' → P (done ++ [a]) t') (hstart : P [] s) (h : l.foldlM f s = some s') :
    P l s' := by
  suffices hrest : ∀ done rest t, l = done ++ rest → P done t → rest.foldlM f t = some s' → P l s' from
    hrest [] l s rfl hstart h
  intro done rest
  induction rest generalizing done with
  | nil =>
    intro t hl ht hfold
    cases hfold
    rwa [hl, List.append_nil]
  | cons a rest ih =>
    intro t hl ht hfold
    rw [List.foldlM_cons] at hfold
    obtain ⟨t',hat,hfold⟩ := Option.bind_eq_some_iff.mp hfold
    have hl' : l = (done ++ [a]) ++ rest := by rw [hl, List.append_assoc, List.singleton_append]
    exact ih (done ++ [a]) t' hl' (hstep done a t t' ⟨rest,hl'.symm⟩ ht hat) hfold

theorem foldlM_option_keeps {P : σ → Prop} (hstep : ∀ a ∈ l, ∀ t t', P t → f t a = some t' → P t')
    (hstart : P s) (h : l.foldlM f s = some s') : P s' := by
  refine foldlM_option_invariant (P := fun _ => P) ?_ hstart h
  intro done a t t' hpre ht hat
  exact hstep a (hpre.subset (by simp)) t t' ht hat

theorem foldlM_option_isSome {P : List ε → σ → Prop} (hs : P l s)
    (hround : ∀ a l s, P (a :: l) s → ∃ s', f s a = some s' ∧ P l s') : (l.foldlM f s).isSome = true := by
  induction l generalizing s with
  | nil => rfl
  | cons a l ih =>
    obtain ⟨s',hs',hrest⟩ := hround a l s hs
    rw [List.foldlM_cons, hs']
    exact ih hrest

theorem foldlM_option_simulates {ρ : Type*} {g : ρ → ε → Option ρ} (π : σ → ρ)
    (hstep : ∀ a t t', f t a = some t' → g (π t) a = some (π t')) (h : l.foldlM f s = some s') :
    l.foldlM g (π s) = some (π s') := by
  induction l generalizing s with
  | nil =>
    cases h
    rfl
  | cons a l ih =>
    rw [List.foldlM_cons] at h ⊢
    obtain ⟨t,hat,hrest⟩ := Option.bind_eq_some_iff.mp h
    rw [hstep a s t hat]
    exact ih hrest

end MetaZenith
