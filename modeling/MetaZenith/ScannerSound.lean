import MetaZenith.TokenIdScanner

/-! What the scanner returns, in any order of ids and text: the atoms of the stream in their order,
if the text of a special token is found only where the token is. -/

namespace MetaZenith.ParserEngine

open List

variable {after before l l' : List Atom} {t : PreLexedTerminal} {front unread window : Text}

open TextSearch

def Solid (atoms : List Atom) : Prop := ∀ t ∈ specialsOf atoms, t.text ≠ []

def Clear (atoms : List Atom) : Prop :=
  ∀ t ∈ specialsOf atoms, ∀ i, t.text <+: (textOf atoms).drop i →
    ∃ before t' after, atoms = before ++ .special t' :: after ∧ (textOf before).length = i ∧
      t'.text = t.text

theorem Solid.of_append_right (h : Solid (l ++ l')) : Solid l' := by
  intro t ht
  exact h t (by rw [specialsOf_append]; exact mem_append_right _ ht)

theorem Solid.of_append_left (h : Solid (l ++ l')) : Solid l := by
  intro t ht
  exact h t (by rw [specialsOf_append]; exact mem_append_left _ ht)

theorem mem_specialsOf_of_eq (h : l = before ++ .special t :: after) : t ∈ specialsOf l := by
  rw [h, specialsOf_append, specialsOf_special]
  exact mem_append_right _ mem_cons_self

theorem exists_of_length_le (h : l ++ l' = before ++ .special t :: after) (ht : t.text ≠ [])
    (hle : (textOf l).length ≤ (textOf before).length) :
    ∃ before', before = l ++ before' ∧ l' = before' ++ .special t :: after := by
  rcases append_eq_append_iff.mp h with ⟨before',hbefore,hl'⟩ | ⟨rest,hl,hrest⟩
  · exact ⟨before',hbefore,hl'⟩
  · cases rest with
    | nil => exact ⟨[],by rw [hl, append_nil, append_nil],hrest.symm⟩
    | cons a rest =>
      -- otherwise the token would be in the first part
      rw [cons_append, List.cons.injEq] at hrest
      have hpos := length_pos_iff.mpr ht
      have hlen := congrArg (fun l => (textOf l).length) hl
      simp only [← hrest.1, textOf_append, textOf_cons, Atom.text, length_append] at hlen
      omega

theorem Clear.of_append_right (h : Clear (l ++ l')) (hsolid : Solid (l ++ l')) : Clear l' := by
  intro t ht i hi
  have hmem : t ∈ specialsOf (l ++ l') := by
    rw [specialsOf_append]
    exact mem_append_right _ ht
  obtain ⟨before,t',after,heq,hlen,htext⟩ := h t hmem ((textOf l).length + i) (by
    rw [textOf_append, ← drop_drop, drop_left]
    exact hi)
  obtain ⟨before',hbefore,hl'⟩ := exists_of_length_le heq (hsolid t' (mem_specialsOf_of_eq heq))
    (by omega)
  refine ⟨before',t',after,hl',?_,htext⟩
  rw [hbefore, textOf_append, length_append] at hlen
  omega

theorem Clear.of_append_left (h : Clear (l ++ l')) (hsolid : Solid (l ++ l')) : Clear l := by
  intro t ht i hi
  have hmem : t ∈ specialsOf (l ++ l') := by
    rw [specialsOf_append]
    exact mem_append_left _ ht
  have hin : t.text <+: (textOf (l ++ l')).drop i := by
    rw [textOf_append]
    exact hi.trans ((prefix_append (textOf l) (textOf l')).drop i)
  obtain ⟨before,t',after,heq,hlen,htext⟩ := h t hmem i hin
  have hpos := length_pos_iff.mpr (hsolid t hmem)
  have hle := hi.length_le
  rw [length_drop] at hle
  -- the token cannot start in the second part
  rcases append_eq_append_iff.mp heq with ⟨before',hbefore,-⟩ | ⟨rest,hl,hrest⟩
  · rw [hbefore, textOf_append, length_append] at hlen
    omega
  · cases rest with
    | nil =>
      rw [hl, append_nil] at hle
      omega
    | cons a rest =>
      rw [cons_append, List.cons.injEq] at hrest
      exact ⟨before,t',rest,by rw [hl, hrest.1],hlen,htext⟩

/-- Where the text of a special token is found in the text received so far, a special token with
this text starts. -/
theorem Clear.of_window {atoms : List Atom} {rest : Text} (h : Clear atoms)
    (htext : window ++ rest = textOf atoms) (ht : t ∈ specialsOf atoms) {i : ℕ}
    (hi : t.text <+: window.drop i) :
    ∃ before t' after, atoms = before ++ .special t' :: after ∧ (textOf before).length = i ∧
      t'.text = t.text := by
  refine h t ht i (hi.trans ?_)
  rw [← htext]
  exact (prefix_append window rest).drop i

theorem length_le_of_first {t' : PreLexedTerminal} {rest : List Atom}
    (h : front.map Atom.letter ++ .special t :: rest = before ++ .special t' :: after) :
    front.length ≤ (textOf before).length := by
  induction front generalizing before with
  | nil => exact Nat.zero_le _
  | cons c front ih =>
    cases before with
    | nil => cases h
    | cons a before =>
      rw [map_cons, cons_append, cons_append, List.cons.injEq] at h
      have := ih h.2
      rw [← h.1, textOf_cons, length_append, length_cons]
      simp only [Atom.text, length_singleton]
      omega

theorem resolveLoop_nil {ts : List PreLexedTerminal} (h : ∀ t ∈ ts, t.text ≠ []) :
    resolveLoop ts [] = ([],[],⟨ts,[]⟩) := by
  induction ts with
  | nil => rfl
  | cons t ts ih =>
    have hfind : findFrom ([] : Text) t.text 0 = none := by
      refine findFrom_zero_eq_none fun j hj => h t mem_cons_self ?_
      rw [drop_nil] at hj
      exact prefix_nil.mp hj
    simp only [resolveLoop, hfind, ih fun t' ht' => h t' (mem_cons_of_mem _ ht')]
    rfl

structure Resolved (pending next : List Atom) (unread : Text)
    (r : List LexerInput × Text × Deferred) (left : List Atom) : Prop where
  atoms : atomsOf r.1 ++ left = pending
  chunks : NoEmptyChunk r.1
  terminals : r.2.2.terminals = specialsOf left
  done : specialsOf left = [] → r.2.2.postText = [] ∧ r.2.1 ++ unread = textOf (left ++ next)
  waiting : specialsOf left ≠ [] → r.2.1 = [] ∧ r.2.2.postText ++ unread = textOf (left ++ next)
  complete : unread = [] → specialsOf left = []

theorem findFrom_first {rest : List Atom}
    (hclear : Clear (front.map .letter ++ .special t :: rest)) (ht : t.text ≠ [])
    (htext : window ++ unread = textOf (front.map .letter ++ .special t :: rest)) :
    findFrom window t.text 0 =
      if front.length+t.text.length ≤ window.length then some front.length else none := by
  have hat {j : ℕ} (hj : t.text <+: window.drop j) : front.length ≤ j := by
    obtain ⟨before,t',after,heq,hlen,-⟩ := hclear.of_window htext (mem_specialsOf_of_eq rfl) hj
    rw [← hlen]
    exact length_le_of_first heq
  split
  · case isTrue hle =>
    refine findFrom_zero_of_first (by omega) ?_ fun j hj => hat hj
    -- the text of the token is within the text received
    have hfull : t.text <+: (window ++ unread).drop front.length := by
      rw [htext, textOf_append, textOf_letters, drop_left, textOf_cons]
      exact prefix_append _ _
    rw [drop_append_of_le_length (by omega)] at hfull
    refine prefix_of_prefix_length_le hfull (prefix_append _ _) ?_
    rw [length_drop]
    omega
  · case isFalse hle =>
    refine findFrom_zero_eq_none fun j hj => hle ?_
    have hj' := hat hj
    have hlen := hj.length_le
    have hpos := length_pos_iff.mpr ht
    rw [length_drop] at hlen
    omega

theorem resolved_resolveLoop {pending next : List Atom} (hclear : Clear (pending ++ next))
    (hsolid : Solid (pending ++ next)) (htext : window ++ unread = textOf (pending ++ next)) :
    ∃ left, Resolved pending next unread (resolveLoop (specialsOf pending) window) left := by
  -- induction on the deferred terminals; each splits the pending atoms once
  induction hts : specialsOf pending generalizing pending window with
  | nil =>
    exact ⟨pending,rfl,noEmptyChunk_nil,hts.symm,fun _ => ⟨rfl,htext⟩,fun h => absurd hts h,
      fun _ => hts⟩
  | cons t ts ih =>
    obtain ⟨front,rest,rfl,hrest⟩ := exists_of_specialsOf_eq_cons hts
    rw [append_assoc, cons_append] at hclear hsolid htext
    have ht : t.text ≠ [] := hsolid t (mem_specialsOf_of_eq rfl)
    have hfind := findFrom_first hclear ht htext
    by_cases hle : front.length+t.text.length ≤ window.length
    · rw [if_pos hle] at hfind
      -- the text in front of the terminal, and the terminal
      rw [textOf_append, textOf_letters, textOf_cons, Atom.text] at htext
      have hsplit : window = front ++ (t.text ++ window.drop (front.length+t.text.length)) := by
        rw [← append_assoc, ← length_append]
        refine (prefix_iff_eq_append.mp ?_).symm
        have hfull : front ++ t.text <+: window ++ unread := by
          rw [htext, ← append_assoc]
          exact prefix_append _ _
        refine prefix_of_prefix_length_le hfull (prefix_append _ _) ?_
        rw [length_append]
        exact hle
      have hremaining : window.drop (front.length+t.text.length) ++ unread =
          textOf (rest ++ next) := by
        rw [hsplit, append_assoc, append_assoc] at htext
        exact append_cancel_left (append_cancel_left htext)
      have hclear' : Clear (rest ++ next) :=
        (hclear.of_append_right hsolid).of_append_right (l := [.special t]) hsolid.of_append_right
      have hsolid' : Solid (rest ++ next) :=
        hsolid.of_append_right.of_append_right (l := [.special t])
      obtain ⟨left,hleft⟩ := ih hclear' hsolid' hremaining hrest
      refine ⟨left,?_,?_,?_,?_,?_,hleft.complete⟩
      · have htake : window.take front.length = front := by
          rw [hsplit, take_left]
        simp only [resolveLoop, hfind, htake]
        rw [atomsOf_append, atomsOf_textItem, atomsOf_preLexed, append_assoc, cons_append, hleft.atoms]
      · simp only [resolveLoop, hfind]
        exact (noEmptyChunk_textItem _).append (hleft.chunks.preLexed t)
      · simpa [resolveLoop, hfind] using hleft.terminals
      · simpa [resolveLoop, hfind] using hleft.done
      · simpa [resolveLoop, hfind] using hleft.waiting
    · rw [if_neg hle] at hfind
      -- nothing is found any more: the text waits
      have hsolid' : Solid rest :=
        (hsolid.of_append_right.of_append_right (l := [.special t])).of_append_left
      have hnil : resolveLoop ts [] = ([],[],⟨ts,[]⟩) :=
        resolveLoop_nil fun t' ht' => hsolid' t' (by rw [hrest]; exact ht')
      refine ⟨front.map .letter ++ .special t :: rest,?_,?_,?_,?_,?_,?_⟩
      · simp only [resolveLoop, hfind, hnil]
        rfl
      · simp only [resolveLoop, hfind, hnil]
        exact noEmptyChunk_nil
      · simp only [resolveLoop, hfind, hnil]
        rw [hts]
      · intro h
        rw [hts] at h
        cases h
      · intro _
        simp only [resolveLoop, hfind, hnil]
        rw [append_nil, append_assoc, cons_append]
        exact ⟨trivial,htext⟩
      · rintro rfl
        have hlen := congrArg List.length htext
        simp only [textOf_append, textOf_letters, textOf_cons, Atom.text, append_nil,
          length_append] at hlen
        omega

def placed (received : ℕ) : ℕ → List Atom → List (PreLexedTerminal × Option ℕ)
  | _, [] => []
  | k, .letter _ :: l => placed received (k+1) l
  | k, .special t :: l =>
    (t,if k+t.text.length ≤ received then some k else none) :: placed received (k+t.text.length) l

theorem placed_letters (received k : ℕ) (front : Text) (l : List Atom) :
    placed received k (front.map .letter ++ l) = placed received (k+front.length) l := by
  induction front generalizing k with
  | nil => rfl
  | cons c front ih =>
    rw [map_cons, cons_append, placed, ih, length_cons, Nat.add_right_comm, Nat.add_assoc]

theorem placed_eq_none {received k : ℕ} (hsolid : Solid l) (hk : received ≤ k) :
    placed received k l = (specialsOf l).map fun t => (t,none) := by
  induction l generalizing k with
  | nil => rfl
  | cons a l ih =>
    cases a with
    | letter c => exact ih (hsolid.of_append_right (l := [.letter c])) (by omega)
    | special t =>
      have hpos := length_pos_iff.mpr (hsolid t mem_cons_self)
      rw [placed, if_neg (by omega), ih (hsolid.of_append_right (l := [.special t])) (by omega)]
      rfl

theorem eq_of_nodup_text {before' after' : List Atom} {t' : PreLexedTerminal}
    (h : before ++ .special t :: after = before' ++ .special t' :: after') (htext : t'.text = t.text)
    (hnodup : ((specialsOf (before ++ .special t :: after)).map PreLexedTerminal.text).Nodup) :
    before = before' := by
  have hapart {l l' : List Atom} {t₁ t₂ : PreLexedTerminal} (heq : t₁.text = t₂.text)
      (hmem : t₂ ∈ specialsOf l')
      (hnd : ((specialsOf (l ++ .special t₁ :: l')).map PreLexedTerminal.text).Nodup) : False := by
    rw [specialsOf_append, specialsOf_special, map_append, map_cons] at hnd
    refine (nodup_cons.mp hnd.of_append_right).1 ?_
    rw [heq]
    exact mem_map_of_mem hmem
  rcases append_eq_append_iff.mp h with ⟨rest,hbefore,hrest⟩ | ⟨rest,hbefore,hrest⟩
  · cases rest with
    | nil => rw [hbefore, append_nil]
    | cons a rest =>
      rw [cons_append, List.cons.injEq] at hrest
      exact (hapart htext.symm (mem_specialsOf_of_eq hrest.2) hnodup).elim
  · cases rest with
    | nil => rw [hbefore, append_nil]
    | cons a rest =>
      rw [cons_append, List.cons.injEq] at hrest
      rw [h] at hnodup
      exact (hapart htext (mem_specialsOf_of_eq hrest.2) hnodup).elim

theorem anchorPositions_eq {atoms : List Atom} (hclear : Clear atoms) (hsolid : Solid atoms)
    (hnodup : ((specialsOf atoms).map PreLexedTerminal.text).Nodup)
    (htext : window ++ unread = textOf atoms) (hatoms : atoms = before ++ after) :
    (anchorPositions window (specialsOf after)).1 = placed window.length (textOf before).length after ∧
      (anchorPositions window (specialsOf after)).2 ≤ window.length ∧
      min window.length (textOf before).length ≤ (anchorPositions window (specialsOf after)).2 := by
  induction after generalizing before with
  | nil => exact ⟨rfl,le_rfl,Nat.min_le_left ..⟩
  | cons a after ih =>
    have hstep : atoms = before ++ [a] ++ after := by
      rw [hatoms, append_assoc]
      rfl
    obtain ⟨hpos,hle,hmin⟩ := ih hstep
    rw [textOf_append, textOf_cons, textOf_nil, append_nil, length_append] at hpos hmin
    cases a with
    | letter c =>
      simp only [Atom.text, length_singleton] at hpos hmin
      exact ⟨hpos,hle,le_trans (by omega) hmin⟩
    | special t =>
      simp only [Atom.text] at hpos hmin
      have ht : t.text ≠ [] := hsolid t (mem_specialsOf_of_eq hatoms)
      have hlen := length_pos_iff.mpr ht
      generalize hr : anchorPositions window (specialsOf after) = r at hpos hle hmin
      have hunique (j : ℕ) (hj : t.text <+: (window.take r.2).drop j) :
          j = (textOf before).length ∧ j+t.text.length ≤ r.2 := by
        have hfit := hj.length_le
        rw [length_drop, length_take] at hfit
        obtain ⟨before',t',after',heq,hj',htt⟩ := hclear.of_window htext (mem_specialsOf_of_eq hatoms)
          (hj.trans ((List.take_prefix r.2 window).drop j))
        rw [hatoms] at heq hnodup
        rw [eq_of_nodup_text heq htt hnodup]
        exact ⟨hj'.symm,by omega⟩
      by_cases harrived : (textOf before).length+t.text.length ≤ window.length
      · have hfind : rfindTo window t.text r.2 = some (textOf before).length := by
          refine rfindTo_of_unique ?_ (by omega) fun j hj => (hunique j hj).1
          have hfull : t.text <+: (window ++ unread).drop (textOf before).length := by
            rw [htext, hatoms, textOf_append, drop_left, textOf_cons]
            exact prefix_append _ _
          rw [drop_append_of_le_length (by omega)] at hfull
          have hshort : (window.take r.2).drop (textOf before).length <+:
              window.drop (textOf before).length ++ unread :=
            ((List.take_prefix r.2 window).drop _).trans (prefix_append _ _)
          refine prefix_of_prefix_length_le hfull hshort ?_
          rw [length_drop, length_take]
          omega
        rw [specialsOf_special, anchorPositions, hr]
        simp only [hfind]
        rw [placed, if_pos harrived, hpos]
        exact ⟨rfl,by omega,by omega⟩
      · have hfind : rfindTo window t.text r.2 = none := by
          refine rfindTo_eq_none fun j hj => harrived ?_
          obtain ⟨rfl,hfit⟩ := hunique j hj
          omega
        rw [specialsOf_special, anchorPositions, hr]
        simp only [hfind]
        rw [placed, if_neg harrived, hpos]
        exact ⟨rfl,hle,by omega⟩

def NoCut (atoms : List Atom) (unread : Text) : Prop :=
  ∀ before t after, atoms = before ++ .special t :: after → t.terminal = dropTerminal →
    unread.length ≤ (textOf after).length ∨ t.text.length+(textOf after).length ≤ unread.length

theorem NoCut.of_append_right (h : NoCut (l ++ l') unread) : NoCut l' unread := by
  intro before t after heq
  exact h (l ++ before) t after (by rw [heq, append_assoc])

/-- Anchors that are not found wait; the text waits with them, unless only dropped tokens wait. -/
theorem placeAnchors_none (deltaText : Text) (ts : List PreLexedTerminal) (consumed : ℕ)
    (deferred : Deferred) (hconsumed : consumed ≤ deltaText.length) :
    placeAnchors deltaText (ts.map fun t => (t,none)) consumed deferred =
      if ∃ t ∈ ts, t.terminal ≠ dropTerminal then
        ([],⟨deferred.terminals ++ ts,deferred.postText ++ deltaText.drop consumed⟩)
      else (textItem (deltaText.drop consumed),⟨deferred.terminals ++ ts,deferred.postText⟩) := by
  induction ts generalizing consumed deferred with
  | nil => simp [placeAnchors]
  | cons t ts ih =>
    have hlater : ((ts.map fun t => (t,(none : Option ℕ))).any fun a => a.2.isSome) = false := by
      simp
    simp only [map_cons, placeAnchors, Option.filter_none, hlater, Bool.not_false, Bool.true_and]
    have hdone : deltaText.drop deltaText.length = [] := drop_length
    by_cases hdrop : t.terminal = dropTerminal
    · simp only [hdrop, ne_eq, not_true_eq_false, decide_false, Bool.and_false, Bool.false_eq_true,
        if_false]
      rw [ih _ _ hconsumed]
      simp [hdrop]
    · by_cases hlt : consumed < deltaText.length
      · simp only [hlt, hdrop, ne_eq, not_false_eq_true, decide_true, Bool.and_true, if_true]
        rw [ih _ _ le_rfl]
        simp [hdone, hdrop, textItem]
      · -- nothing is left to wait
        have hrest : deltaText.drop consumed = [] := drop_eq_nil_of_le (by omega)
        simp only [hlt, decide_false, Bool.false_and, Bool.false_eq_true, if_false]
        rw [ih _ _ hconsumed]
        simp [hrest, hdrop, textItem]

structure Pending (deferred : Deferred) (left : List Atom) (unread : Text) : Prop where
  terminals : deferred.terminals = specialsOf left
  text : deferred.postText ++ unread = textOf left
  settled : specialsOf left = [] → deferred.postText = []

theorem placeAnchors_spec {consumed : ℕ} (hsolid : Solid after) (hcut : NoCut after unread)
    (hconsumed : consumed ≤ window.length) (htext : window.drop consumed ++ unread = textOf after) :
    ∃ left, atomsOf (placeAnchors window (placed window.length consumed after) consumed {}).1 ++ left =
        after ∧
      NoEmptyChunk (placeAnchors window (placed window.length consumed after) consumed {}).1 ∧
      Pending (placeAnchors window (placed window.length consumed after) consumed {}).2 left unread := by
  induction hts : specialsOf after generalizing after consumed with
  | nil =>
    have hletters := eq_letters_of_specialsOf_eq_nil hts
    have hplaced : placed window.length consumed after = [] := by
      rw [hletters, ← append_nil (List.map Atom.letter _), placed_letters]
      rfl
    rw [hplaced]
    refine ⟨unread.map .letter,?_,noEmptyChunk_textItem _,?_,?_,fun _ => rfl⟩
    · rw [placeAnchors, atomsOf_textItem, ← map_append, htext, ← hletters]
    · rw [specialsOf_letters]
      rfl
    · rw [textOf_letters]
      rfl
  | cons t ts ih =>
    obtain ⟨front,rest,rfl,hrest⟩ := exists_of_specialsOf_eq_cons hts
    have hsolid' : Solid rest := hsolid.of_append_right.of_append_right (l := [.special t])
    have hlen := congrArg List.length htext
    simp only [textOf_append, textOf_letters, textOf_cons, Atom.text, length_append,
      length_drop] at hlen
    have hfront {m : ℕ} (hm : m ≤ (window.drop consumed).length) (hm' : m ≤ front.length) :
        (window.drop consumed).take m = front.take m := by
      rw [← take_append_of_le_length hm, htext, textOf_append, textOf_letters,
        take_append_of_le_length hm']
    by_cases harrived : consumed+front.length+t.text.length ≤ window.length
    · -- the anchor is placed, with the text in front of it
      rw [placed_letters, placed, if_pos harrived]
      simp only [placeAnchors, Option.filter_some, Nat.le_add_right, decide_true, if_true]
      have hmid : (window.take (consumed+front.length)).drop consumed = front := by
        rw [drop_take, Nat.add_sub_cancel_left, hfront (by rw [length_drop]; omega) le_rfl, take_length]
      have hnext : window.drop (consumed+front.length+t.text.length) ++ unread = textOf rest := by
        have hdrop := congrArg (List.drop (front.length+t.text.length)) htext
        rw [drop_append_of_le_length (by rw [length_drop]; omega), drop_drop,
          textOf_append, textOf_letters, textOf_cons, Atom.text, ← append_assoc,
          ← length_append, drop_left, length_append, ← Nat.add_assoc] at hdrop
        exact hdrop
      obtain ⟨left,hatoms,hchunks,hpending⟩ := ih hsolid'
        (NoCut.of_append_right (l := [.special t]) hcut.of_append_right) harrived hnext hrest
      refine ⟨left,?_,?_,hpending⟩
      · rw [hmid, atomsOf_append, atomsOf_textItem, atomsOf_preLexed, append_assoc, cons_append, hatoms]
      · exact (noEmptyChunk_textItem _).append (hchunks.preLexed t)
    · -- this anchor and all behind it wait
      have hplaced : placed window.length consumed (front.map .letter ++ .special t :: rest) =
          (t :: ts).map fun t => (t,none) := by
        rw [placed_letters, placed, if_neg harrived, placed_eq_none hsolid' (by omega), hrest]
        rfl
      rw [hplaced, placeAnchors_none _ _ _ _ hconsumed]
      by_cases hwait : ∃ t' ∈ t :: ts, t'.terminal ≠ dropTerminal
      · rw [if_pos hwait]
        refine ⟨front.map .letter ++ .special t :: rest,rfl,noEmptyChunk_nil,?_,?_,fun h => ?_⟩
        · exact hts.symm
        · exact htext
        · rw [hts] at h
          cases h
      · -- the text goes on, and does not reach the dropped token
        rw [if_neg hwait]
        have hdrop : t.terminal = dropTerminal := by
          by_contra hne
          exact hwait ⟨t,mem_cons_self,hne⟩
        have hshort : (window.drop consumed).length ≤ front.length := by
          rw [length_drop]
          rcases hcut _ t rest rfl hdrop with hle | hle <;> omega
        have hsplit : window.drop consumed ++ front.drop (window.drop consumed).length = front := by
          apply prefix_iff_eq_append.mp
          rw [prefix_iff_eq_take, ← hfront le_rfl hshort, take_length]
        refine ⟨(front.drop (window.drop consumed).length).map .letter ++ .special t :: rest,?_,
          noEmptyChunk_textItem _,?_,?_,fun _ => rfl⟩
        · rw [atomsOf_textItem, ← append_assoc, ← map_append, hsplit]
        · rw [specialsOf_append, specialsOf_letters, specialsOf_special, hrest]
        · rw [textOf_append, textOf_letters] at htext ⊢
          nth_rewrite 1 [← hsplit] at htext
          rw [append_assoc] at htext
          exact append_cancel_left htext

structure Scanned (atoms : List Atom) (unread : Text) (r : List LexerInput × Deferred)
    (left : List Atom) : Prop where
  atoms : atomsOf r.1 ++ left = atoms
  chunks : NoEmptyChunk r.1
  pending : Pending r.2 left unread
  complete : unread = [] → left = []

theorem textOf_ne_nil (hsolid : Solid l) (h : specialsOf l ≠ []) : textOf l ≠ [] := by
  intro hnil
  obtain ⟨t,ts,hts⟩ := exists_cons_of_ne_nil h
  obtain ⟨front,rest,rfl,-⟩ := exists_of_specialsOf_eq_cons hts
  rw [textOf_append, textOf_cons, append_eq_nil_iff, append_eq_nil_iff] at hnil
  exact hsolid t (mem_specialsOf_of_eq rfl) hnil.2.1

/-- The whole text of a group is found behind what was held back, and only when all of it is
there. -/
theorem eq_length_of_findFrom {group : List Atom} {pos : ℕ}
    (hclear : Clear (front.map .letter ++ group)) (hspecial : specialsOf group ≠ [])
    (hgroup : textOf group ≠ []) (htext : window ++ unread = textOf (front.map .letter ++ group))
    (hfind : findFrom window (textOf group) 0 = some pos) : pos = front.length ∧ unread = [] := by
  have hocc := isPrefix_of_findFrom hfind
  have hlen := congrArg List.length htext
  rw [textOf_append, textOf_letters, length_append, length_append] at hlen
  obtain ⟨t,ts,hts⟩ := exists_cons_of_ne_nil hspecial
  obtain ⟨inner,rest,rfl,-⟩ := exists_of_specialsOf_eq_cons hts
  -- the first special token of the group shows where the group starts
  have hinner : t.text <+: window.drop (pos+inner.length) := by
    rw [textOf_append, textOf_letters, textOf_cons, Atom.text] at hocc
    have hdrop := hocc.drop inner.length
    rw [drop_left, drop_drop] at hdrop
    exact (prefix_append _ _).trans hdrop
  have hmem : t ∈ specialsOf (front.map Atom.letter ++ (inner.map .letter ++ .special t :: rest)) := by
    rw [specialsOf_append]
    exact mem_append_right _ (mem_specialsOf_of_eq rfl)
  obtain ⟨before,t',after,heq,hbefore,-⟩ := hclear.of_window htext hmem hinner
  have hle : (front ++ inner).length ≤ (textOf before).length := by
    rw [← append_assoc, ← map_append] at heq
    exact length_le_of_first heq
  have hfit := hocc.length_le
  rw [length_drop] at hfit
  rw [length_append] at hle
  have hpos := length_pos_iff.mpr hgroup
  exact ⟨by omega,length_eq_zero_iff.mp (by omega)⟩

namespace TokenIDScanner

variable {scanner : TokenIDScanner} {ids : List ℕ}

theorem scanGroup_noSpecial (h : scanner.hasSpecial ids = false) (deferred : Deferred) (text : Text) :
    scanner.scanGroup deferred text ids = (textItem text,deferred) := by
  simp [scanGroup, h]

theorem tokenIdToTerminal_ne_nil (h : scanner.hasSpecial ids = true) :
    scanner.tokenIdToTerminal.isEmpty = false := by
  obtain ⟨tid,-,htid⟩ := any_eq_true.mp h
  cases hmap : scanner.tokenIdToTerminal with
  | nil =>
    rw [terminalOf, hmap] at htid
    cases htid
  | cons _ _ => rfl

theorem specialsOf_ne_nil (h : scanner.hasSpecial ids = true) :
    specialsOf (scanner.streamAtoms ids) ≠ [] := by
  intro hnil
  rw [specialsOf_streamAtoms_eq_nil, h] at hnil
  cases hnil

theorem atomsOf_results (scanner : TokenIDScanner) (ids : List ℕ) :
    atomsOf (scanner.groupItems ids []) = scanner.streamAtoms ids := by
  rw [atomsOf_groupItems]
  rfl

theorem scanGroup_special (h : scanner.hasSpecial ids = true) (deferred : Deferred) (text : Text) :
    scanner.scanGroup deferred text ids =
      if text = [] then
        ([],⟨deferred.terminals ++ specialsOf (scanner.streamAtoms ids),deferred.postText⟩)
      else recoverHoldbackText deferred text (scanner.groupItems ids []) := by
  simp [scanGroup, h, tokenIdToTerminal_ne_nil h, filterMap_terminal_eq_specialsOf, atomsOf_results]

/-- With all terminals in a group known by their ids, the text is only searched for the group. -/
theorem recoverHoldbackText_eq (hspecial : scanner.hasSpecial ids = true)
    (hsolid : Solid (scanner.streamAtoms ids)) (deferred : Deferred) (text : Text) :
    recoverHoldbackText deferred text (scanner.groupItems ids []) =
      match findFrom text (textOf (scanner.streamAtoms ids)) 0 with
      | some pos => (textItem (text.take pos) ++ scanner.groupItems ids [],deferred)
      | none => placeAnchors text
          (anchorPositions text (specialsOf (scanner.streamAtoms ids))).1 0 deferred := by
  have hspecials := specialsOf_ne_nil hspecial
  have htext := textOf_ne_nil hsolid hspecials
  have hne : scanner.groupItems ids [] ≠ [] := by
    intro hnil
    have hatoms := scanner.atomsOf_results ids
    rw [hnil] at hatoms
    rw [← hatoms] at hspecials
    exact hspecials rfl
  unfold recoverHoldbackText rebuildFromAnchors
  simp only [flatMap_text_eq_textOf, filterMap_terminal_eq_specialsOf, atomsOf_results,
    List.isEmpty_iff, hne, htext, hspecials, if_false] <;> rfl

theorem scanned_scanGroup (hclear : Clear (front.map .letter ++ scanner.streamAtoms ids))
    (hsolid : Solid (scanner.streamAtoms ids)) (hnodup : unread = [] ∨
      ((specialsOf (scanner.streamAtoms ids)).map PreLexedTerminal.text).Nodup)
    (hcut : NoCut (front.map .letter ++ scanner.streamAtoms ids) unread)
    (htext : window ++ unread = textOf (front.map .letter ++ scanner.streamAtoms ids)) :
    ∃ left, Scanned (front.map .letter ++ scanner.streamAtoms ids) unread
      (scanner.scanGroup {} window ids) left := by
  cases hspecial : scanner.hasSpecial ids with
  | false =>
    -- only text
    rw [scanGroup_noSpecial hspecial]
    have hnone := specialsOf_streamAtoms_eq_nil.mpr hspecial
    have hletters : front.map .letter ++ scanner.streamAtoms ids = (window ++ unread).map .letter := by
      rw [htext]
      apply eq_letters_of_specialsOf_eq_nil
      rw [specialsOf_append, specialsOf_letters, hnone]
      rfl
    refine ⟨unread.map .letter,?_,noEmptyChunk_textItem _,⟨?_,?_,fun _ => rfl⟩,fun h => ?_⟩
    · rw [hletters, atomsOf_textItem, map_append]
    · rw [specialsOf_letters]
    · rw [textOf_letters]
      rfl
    · rw [h]
      rfl
  | true =>
    have hspecials := specialsOf_ne_nil hspecial
    have hgroup := textOf_ne_nil hsolid hspecials
    rw [scanGroup_special hspecial]
    by_cases hwindow : window = []
    · -- no text yet: the terminals wait
      rw [if_pos hwindow]
      rw [hwindow] at htext
      refine ⟨front.map .letter ++ scanner.streamAtoms ids,rfl,noEmptyChunk_nil,⟨?_,htext,fun _ => rfl⟩,
        fun h => ?_⟩
      · rw [specialsOf_append, specialsOf_letters]
      · rw [h, textOf_append, eq_comm, append_nil, append_eq_nil_iff] at htext
        exact absurd htext.2 hgroup
    rw [if_neg hwindow, recoverHoldbackText_eq hspecial hsolid]
    cases hfind : findFrom window (textOf (scanner.streamAtoms ids)) 0 with
    | some pos =>
      obtain ⟨rfl,rfl⟩ := eq_length_of_findFrom hclear hspecials hgroup htext hfind
      rw [append_nil, textOf_append, textOf_letters] at htext
      refine ⟨[],?_,?_,⟨rfl,rfl,fun _ => rfl⟩,fun _ => rfl⟩
      · rw [append_nil, atomsOf_append, atomsOf_textItem, atomsOf_results, htext, take_left]
      · exact (noEmptyChunk_textItem _).append (scanner.noEmptyChunk_groupItems ids [])
    | none =>
      have hunread : unread ≠ [] := by
        rintro rfl
        rw [append_nil, textOf_append, textOf_letters] at htext
        have hno := findFrom_eq_none.mp hfind front.length (Nat.zero_le _)
        rw [endsAt_add_length (by rw [htext, length_append]; omega), htext, drop_left] at hno
        exact hno prefix_rfl
      have hsolid' : Solid (front.map .letter ++ scanner.streamAtoms ids) := by
        intro t ht
        rw [specialsOf_append, specialsOf_letters] at ht
        exact hsolid t ht
      have hanchors : specialsOf (front.map .letter ++ scanner.streamAtoms ids) =
          specialsOf (scanner.streamAtoms ids) := by
        rw [specialsOf_append, specialsOf_letters]
        rfl
      have hplaces := (anchorPositions_eq hclear hsolid'
        (by rw [hanchors]; exact hnodup.resolve_left hunread) htext (nil_append _).symm).1
      rw [hanchors] at hplaces
      simp only [hplaces]
      obtain ⟨left,hatoms,hchunks,hpending⟩ := placeAnchors_spec hsolid' hcut (Nat.zero_le _) htext
      exact ⟨left,hatoms,hchunks,hpending,fun h => absurd h hunread⟩

theorem scanned_scanGroup_waiting {left : List Atom} {deferred : Deferred}
    (hterminals : deferred.terminals = specialsOf left) (hwait : specialsOf left ≠ [])
    (hunread : unread ≠ [])
    (htext : deferred.postText ++ unread = textOf (left ++ scanner.streamAtoms ids)) :
    Scanned (left ++ scanner.streamAtoms ids) unread (scanner.scanGroup deferred [] ids)
      (left ++ scanner.streamAtoms ids) := by
  have hwait' : specialsOf (left ++ scanner.streamAtoms ids) ≠ [] := by
    rw [specialsOf_append]
    exact fun h => hwait (append_eq_nil_iff.mp h).1
  cases hspecial : scanner.hasSpecial ids with
  | false =>
    rw [scanGroup_noSpecial hspecial]
    refine ⟨rfl,noEmptyChunk_nil,⟨?_,htext,fun h => absurd h hwait'⟩,fun h => absurd h hunread⟩
    rw [specialsOf_append, specialsOf_streamAtoms_eq_nil.mpr hspecial, append_nil]
    exact hterminals
  | true =>
    rw [scanGroup_special hspecial, if_pos rfl]
    refine ⟨rfl,noEmptyChunk_nil,⟨?_,htext,fun h => absurd h hwait'⟩,fun h => absurd h hunread⟩
    rw [specialsOf_append, hterminals]

theorem scanned_aligned (hsolid : Solid (scanner.streamAtoms ids)) :
    Scanned (scanner.streamAtoms ids) [] (scanner.scan {} (textOf (scanner.streamAtoms ids)) ids) [] := by
  have hscan : scanner.scan {} (textOf (scanner.streamAtoms ids)) ids =
      scanner.scanGroup {} (textOf (scanner.streamAtoms ids)) ids := rfl
  rw [hscan]
  cases hspecial : scanner.hasSpecial ids with
  | false =>
    rw [scanGroup_noSpecial hspecial]
    refine ⟨?_,noEmptyChunk_textItem _,⟨rfl,rfl,fun _ => rfl⟩,fun _ => rfl⟩
    rw [atomsOf_textItem, append_nil,
      ← eq_letters_of_specialsOf_eq_nil (specialsOf_streamAtoms_eq_nil.mpr hspecial)]
  | true =>
    have hgroup := textOf_ne_nil hsolid (specialsOf_ne_nil hspecial)
    have hfind : findFrom (textOf (scanner.streamAtoms ids)) (textOf (scanner.streamAtoms ids)) 0 =
        some 0 := findFrom_zero_of_first (Nat.zero_le _) prefix_rfl fun _ _ => Nat.zero_le _
    rw [scanGroup_special hspecial, if_neg hgroup, recoverHoldbackText_eq hspecial hsolid, hfind]
    refine ⟨?_,scanner.noEmptyChunk_groupItems ids [],⟨rfl,rfl,fun _ => rfl⟩,fun _ => rfl⟩
    rw [append_nil]
    exact scanner.atomsOf_results ids

/-- When a call finds every terminal at its own place: all text is delivered at once, or the texts
of special tokens occur only there, none comes twice in a group with text still to come, and the
text does not end inside a dropped token. -/
def Anchored (left group : List Atom) (before after : Text) : Prop :=
  (before = [] ∧ after = []) ∨
    (Clear (left ++ group) ∧ (after = [] ∨ ((specialsOf group).map PreLexedTerminal.text).Nodup) ∧
      NoCut (left ++ group) after)

theorem scanned_scan {deferred : Deferred} {left : List Atom} {before after delta : Text}
    (hpending : Pending deferred left before) (hcomplete : before = [] → left = [])
    (hsolid : Solid (left ++ scanner.streamAtoms ids))
    (hdelta : before ++ textOf (scanner.streamAtoms ids) = delta ++ after)
    (hanchored : Anchored left (scanner.streamAtoms ids) before after) :
    ∃ left', Scanned (left ++ scanner.streamAtoms ids) after (scanner.scan deferred delta ids) left' := by
  rcases hanchored with ⟨hbefore,hafter⟩ | ⟨hclear,hnodup,hcut⟩
  · have hleft := hcomplete hbefore
    subst hbefore hafter hleft
    have hdeferred : deferred = {} := by
      cases deferred
      congr
      · exact hpending.terminals
      · exact hpending.settled rfl
    rw [append_nil] at hdelta
    subst hdeferred hdelta
    exact ⟨[],scanned_aligned hsolid⟩
  · have hsolid' := hsolid.of_append_right
    have htext : deferred.postText ++ delta ++ after = textOf (left ++ scanner.streamAtoms ids) := by
      rw [append_assoc, ← hdelta, ← append_assoc, hpending.text, textOf_append]
    by_cases hnone : specialsOf left = []
    · -- nothing waits
      have hpost := hpending.settled hnone
      have hdeferred : deferred = {} := by
        cases deferred
        congr
        exact hpending.terminals.trans hnone
      subst hdeferred
      rw [eq_letters_of_specialsOf_eq_nil hnone] at hclear hcut htext ⊢
      exact scanned_scanGroup hclear hsolid' hnodup hcut htext
    · obtain ⟨left',hresolved⟩ := resolved_resolveLoop hclear hsolid htext
      have hscan : scanner.scan deferred delta ids =
          ((resolveDeferred deferred delta).1 ++ (scanner.scanGroup (resolveDeferred deferred delta).2.2
            (resolveDeferred deferred delta).2.1 ids).1,
          (scanner.scanGroup (resolveDeferred deferred delta).2.2
            (resolveDeferred deferred delta).2.1 ids).2) := by
        have hne : deferred.terminals.isEmpty = false := by
          rw [hpending.terminals]
          simpa using hnone
        simp [scan, hne]
      rw [hscan]
      rw [← hpending.terminals] at hresolved
      change Resolved left _ _ (resolveDeferred deferred delta) left' at hresolved
      generalize resolveDeferred deferred delta = r at hresolved
      -- what the first part returns goes in front
      have hjoin {r' : List LexerInput × Deferred} {left'' : List Atom}
          (h : Scanned (left' ++ scanner.streamAtoms ids) after r' left'') :
          Scanned (left ++ scanner.streamAtoms ids) after (r.1 ++ r'.1,r'.2) left'' := by
        refine ⟨?_,hresolved.chunks.append h.chunks,h.pending,h.complete⟩
        rw [atomsOf_append, append_assoc, h.atoms, ← append_assoc, hresolved.atoms]
      by_cases hdone : specialsOf left' = []
      · obtain ⟨hpost,hrest⟩ := hresolved.done hdone
        have hdeferred : r.2.2 = {} := by
          cases hr : r.2.2
          rw [hr] at hpost
          have hterminals := hresolved.terminals
          rw [hr, hdone] at hterminals
          congr
        have hclear' : Clear (left' ++ scanner.streamAtoms ids) := by
          rw [← hresolved.atoms, append_assoc] at hclear hsolid
          exact hclear.of_append_right hsolid
        have hcut' : NoCut (left' ++ scanner.streamAtoms ids) after := by
          rw [← hresolved.atoms, append_assoc] at hcut
          exact hcut.of_append_right
        rw [eq_letters_of_specialsOf_eq_nil hdone] at hclear' hcut' hrest
        obtain ⟨left'',hscanned⟩ := scanned_scanGroup hclear' hsolid' hnodup hcut' hrest
        rw [← eq_letters_of_specialsOf_eq_nil hdone] at hscanned
        rw [hdeferred]
        exact ⟨left'',hjoin hscanned⟩
      · obtain ⟨hempty,hrest⟩ := hresolved.waiting hdone
        rw [hempty]
        exact ⟨_,hjoin (scanned_scanGroup_waiting hresolved.terminals hdone
          (fun h => hdone (hresolved.complete h)) hrest)⟩

end TokenIDScanner

end MetaZenith.ParserEngine
