import Mathlib

/-! Deterministic acceptors that can take back the tokens they accepted. -/

namespace MetaZenith

variable {S T : Type*}

structure Acceptor (S T : Type*) where
  accept : S → T → Option S
  terminated : S → Bool

structure Matcher (S : Type*) where
  state : S
  undo : List S

namespace Acceptor

variable (A : Acceptor S T)

def run (s : S) (ts : List T) : Option S := ts.foldlM A.accept s

def TakesUntilTerminated : S → List T → Prop
  | _, [] => True
  | s, t :: ts => A.terminated s = true ∨ ∃ s', A.accept s t = some s' ∧ TakesUntilTerminated s' ts

def FindsTerminated (s : S) (ts : List T) : Prop :=
  ∃ pre t post s', ts = pre ++ t :: post ∧ A.run s pre = some s' ∧ A.terminated s' = true

theorem FindsTerminated.cons {s s' : S} {t : T} {ts : List T} (ht : A.accept s t = some s')
    (h : A.FindsTerminated s' ts) : A.FindsTerminated s (t :: ts) := by
  obtain ⟨pre,u,post,s'',rfl,hrun,hdone⟩ := h
  refine ⟨t :: pre, u, post, s'', rfl, ?_, hdone⟩
  rw [run, List.foldlM_cons, ht]
  exact hrun

end Acceptor

namespace Matcher

variable (A : Acceptor S T)

def acceptToken (m : Matcher S) (t : T) : Option (Matcher S) :=
  (A.accept m.state t).map fun s => ⟨s, m.state :: m.undo⟩

def rollback : ℕ → Matcher S → Matcher S
  | 0, m => m
  | n+1, m =>
    match m.undo with
    | s :: undo => rollback n ⟨s, undo⟩
    | [] => m

def acceptLoop : Matcher S → List T → Bool × Matcher S
  | m, [] => (true, m)
  | m, t :: ts =>
    match m.acceptToken A t with
    | some m' => acceptLoop m' ts
    | none => (false, m)

def acceptedPrefix : Matcher S → List T → List T
  | _, [] => []
  | m, t :: ts =>
    match m.acceptToken A t with
    | some m' => t :: acceptedPrefix m' ts
    | none => []

variable {A}

theorem acceptToken_eq_some {m m' : Matcher S} {t : T} :
    m.acceptToken A t = some m' ↔ A.accept m.state t = some m'.state ∧ m'.undo = m.state :: m.undo := by
  unfold acceptToken
  rw [Option.map_eq_some_iff]
  constructor
  · rintro ⟨s,hs,rfl⟩
    exact ⟨hs, rfl⟩
  · rintro ⟨hs,hundo⟩
    exact ⟨m'.state, hs, by cases m'; simp_all⟩

theorem rollback_acceptToken {m m' : Matcher S} {t : T} (h : m.acceptToken A t = some m') (n : ℕ) :
    rollback (n+1) m' = rollback n m := by
  obtain ⟨-,hundo⟩ := acceptToken_eq_some.mp h
  rw [rollback, hundo]

/-- A rejection by a matcher that takes tokens until the end of the input comes after that end. -/
theorem findsTerminated_of_acceptLoop {m : Matcher S} {ts : List T}
    (h : A.TakesUntilTerminated m.state ts) (hreject : (acceptLoop A m ts).1 = false) :
    A.FindsTerminated m.state ts := by
  induction ts generalizing m with
  | nil => cases hreject
  | cons t ts ih =>
    rcases h with hdone | ⟨s',hs',hrest⟩
    · exact ⟨[], t, ts, m.state, rfl, rfl, hdone⟩
    · have htoken : m.acceptToken A t = some ⟨s', m.state :: m.undo⟩ :=
        acceptToken_eq_some.mpr ⟨hs', rfl⟩
      simp only [acceptLoop, htoken] at hreject
      exact .cons A hs' (ih hrest hreject)

end Matcher

end MetaZenith
