import MetaZenith.TextSearch

/-! Incremental detokenization with stop strings. The result of a request does not depend on how its
tokens are grouped into updates, and the text streamed before the end is never taken back. -/

namespace MetaZenith.Detokenizer

open List TextSearch

variable {τ α : Type*} [DecidableEq α]

structure Params (τ α : Type*) where
  stop : List (List α)
  minTokens : ℕ
  includeStopStrInOutput : Bool
  decodeNext : List τ → List α

structure State (τ α : Type*) where
  tokenIds : List τ
  outputText : List α
  lastOutputTextOffset : ℕ

def State.init : State τ α := ⟨[],[],0⟩

variable (P : Params τ α) (done ts : List τ) (st : State τ α) (stopTerminated : Bool)

def Params.stopBufferLength : ℕ :=
  if P.stop ≠ [] ∧ P.includeStopStrInOutput = false then (P.stop.map length).max?.getD 0-1
  else 0

def strFind (text pat : List α) (start : ℤ) : Option ℕ :=
  findFrom text pat (if start < 0 then (start+text.length).toNat else start.toNat)

def checkStopString (outputText : List α) (newCharCount : ℕ) (best : Option (List α × ℕ × ℕ))
    (stopStr : List α) : Option (List α × ℕ × ℕ) :=
  match strFind outputText stopStr (1-newCharCount-stopStr.length) with
  | none => best
  | some stopIndex =>
    let stopEnd := stopIndex+stopStr.length
    match best with
    | none => some (stopStr,stopIndex,stopEnd)
    | some found =>
      if stopEnd < found.2.2 then some (stopStr,stopIndex,stopEnd) else some found

def checkStopStrings (outputText : List α) (newCharCount : ℕ) (stop : List (List α))
    (includeInOutput : Bool) : Option (List α × ℤ) :=
  if newCharCount = 0 ∨ stop = [] then none
  else
    (stop.foldl (checkStopString outputText newCharCount) none).map fun best =>
      if includeInOutput then
        if outputText.length ≤ best.2.2 then (best.1,-1) else (best.1,best.2.2)
      else (best.1,best.2.1)

def appendToken (acc : State τ α × ℕ) (t : τ) : State τ α × ℕ :=
  let tokenIds := acc.1.tokenIds ++ [t]
  let outputText := acc.1.outputText ++ P.decodeNext tokenIds
  ({ acc.1 with tokenIds, outputText },
    if P.minTokens ≠ 0 ∧ tokenIds.length ≤ P.minTokens then outputText.length else acc.2)

def Params.skipsLast : Bool :=
  stopTerminated && !P.includeStopStrInOutput

def Params.decoded (newTokenIds : List τ) (stopTerminated : Bool) : List τ :=
  if P.skipsLast stopTerminated then newTokenIds.dropLast else newTokenIds

def detokenize (newTokenIds : List τ) (stopTerminated : Bool) : State τ α × ℕ :=
  let acc := (P.decoded newTokenIds stopTerminated).foldl (appendToken P) (st,st.outputText.length)
  if P.skipsLast stopTerminated then
    ({ acc.1 with tokenIds := acc.1.tokenIds ++ newTokenIds.getLast?.toList },acc.2)
  else acc

def update (newTokenIds : List τ) (stopTerminated : Bool) : Option (List α) × State τ α :=
  if newTokenIds.isEmpty then (none,st)
  else
    let acc := detokenize P st newTokenIds stopTerminated
    let st := acc.1
    if P.stop ≠ [] ∧ P.minTokens < st.tokenIds.length then
      match checkStopStrings st.outputText (st.outputText.length-acc.2) P.stop
          P.includeStopStrInOutput with
      | none => (none,st)
      | some (stopString,truncateTo) =>
        (some stopString,
          if truncateTo = -1 then st
          else { st with outputText := st.outputText.take truncateTo.toNat })
    else (none,st)

/-- `get_next_output_text`. A negative length counts as zero, which no offset is below. -/
def getNextOutputText (finished delta : Bool) : List α × State τ α :=
  let bufferLength := if finished then 0 else P.stopBufferLength
  let length := st.outputText.length-bufferLength
  if delta then
    if st.lastOutputTextOffset < length then
      ((st.outputText.take length).drop st.lastOutputTextOffset,
        { st with lastOutputTextOffset := length })
    else ([],st)
  else (st.outputText.take length,st)

/-- Updates until one returns a stop string. The last token of all may be a stop token. -/
def run (P : Params τ α) (stopTerminated : Bool) :
    List (List τ) → State τ α → Option (List α) × State τ α
  | [], st => (none,st)
  | group :: groups, st =>
    match update P st group (stopTerminated && groups.flatten.isEmpty) with
    | (some stopString,st) => (some stopString,st)
    | (none,st) => run P stopTerminated groups st

def stream (P : Params τ α) (stopTerminated : Bool) : List (List τ) → State τ α → List (List α)
  | [], _ => []
  | group :: groups, st =>
    let updated := update P st group (stopTerminated && groups.flatten.isEmpty)
    let finished := updated.1.isSome || groups.isEmpty
    let next := getNextOutputText P updated.2 finished true
    if finished then [next.1] else next.1 :: stream P stopTerminated groups next.2

theorem foldl_checkStopString {outputText : List α} {newCharCount : ℕ} {stop : List (List α)}
    (hstop : ∀ s ∈ stop, s ≠ []) (hnew : 0 < newCharCount) (hle : newCharCount ≤ outputText.length) :
    ∃ best, stop.foldl (checkStopString outputText newCharCount) none = best ∧
      best.map (fun b => (b.1,b.2.2)) =
        firstEnd stop outputText (outputText.length-newCharCount) outputText.length ∧
      ∀ b ∈ best, b.2.1+b.1.length = b.2.2 := by
  induction stop using reverseRecOn with
  | nil =>
    refine ⟨none,rfl,?_,by simp⟩
    symm
    exact firstEnd_eq_none.mpr fun _ _ _ => rfl
  | append_singleton done s ih =>
    obtain ⟨best,hbest,hfound,hends⟩ := ih fun s hs => hstop s (mem_append_left _ hs)
    have hs : s ≠ [] := hstop s (by simp)
    have hpos : 0 < s.length := length_pos_of_ne_nil hs
    rw [foldl_append, hbest, foldl_cons, foldl_nil, firstEnd_append_patterns, ← hfound]
    -- a negative start is counted from the end and never before the beginning
    have hstart : (if (1-newCharCount-s.length : ℤ) < 0 then
        (1-newCharCount-s.length+outputText.length : ℤ).toNat
        else (1-newCharCount-s.length : ℤ).toNat) =
        outputText.length-newCharCount+1-s.length := by
      rw [if_pos (by omega)]
      omega
    have hone := findFrom_eq_firstEnd outputText s hstart hs
    rw [checkStopString, strFind, ← hone]
    cases hfind : findFrom outputText s (if (1-newCharCount-s.length : ℤ) < 0 then
        (1-newCharCount-s.length+outputText.length : ℤ).toNat
        else (1-newCharCount-s.length : ℤ).toNat) with
    | none =>
      refine ⟨best,rfl,?_,hends⟩
      cases best <;> rfl
    | some i =>
      cases best with
      | none =>
        refine ⟨_,rfl,rfl,?_⟩
        intro b hb
        cases hb
        rfl
      | some found =>
        by_cases hlt : i+s.length < found.2.2
        · refine ⟨_,rfl,?_,?_⟩
          · simp [if_pos hlt, earlier]
          · simp only [if_pos hlt]
            intro b hb
            cases hb
            rfl
        · refine ⟨_,rfl,?_,?_⟩
          · simp [if_neg hlt, earlier]
          · simp only [if_neg hlt]
            exact hends

def cutText (includeStop : Bool) (text : List α) : Option (List α × ℕ) → List α
  | none => text
  | some (s,e) => text.take (if includeStop then e else e-s.length)

/-- The search returns the earliest stop string in the new text and how much of the text is left. -/
theorem checkStopStrings_eq {outputText : List α} {offset : ℕ} {stop : List (List α)}
    (includeStop : Bool) (hstop : ∀ s ∈ stop, s ≠ []) (hle : offset ≤ outputText.length) :
    let found := checkStopStrings outputText (outputText.length-offset) stop includeStop
    let first := firstEnd stop outputText offset outputText.length
    found.map Prod.fst = first.map Prod.fst ∧
      (match found with
        | none => outputText
        | some (_,truncateTo) =>
          if truncateTo = -1 then outputText else outputText.take truncateTo.toNat) =
        cutText includeStop outputText first := by
  intro found first
  by_cases hnone : outputText.length-offset = 0 ∨ stop = []
  · have hfound : found = none := if_pos hnone
    have hfirst : first = none := by
      refine firstEnd_eq_none.mpr fun e hlo hhi => ?_
      rcases hnone with hzero | hnil
      · omega
      · rw [hnil]
        rfl
    rw [hfound, hfirst]
    exact ⟨rfl,rfl⟩
  · have hnew : 0 < outputText.length-offset := by omega
    obtain ⟨best,hbest,hends,hindex⟩ := foldl_checkStopString hstop hnew
      (Nat.sub_le outputText.length offset)
    have hoffset : outputText.length-(outputText.length-offset) = offset := by omega
    rw [hoffset] at hends
    have hfound : found = best.map fun best =>
        if includeStop then
          if outputText.length ≤ best.2.2 then (best.1,-1) else (best.1,(best.2.2 : ℤ))
        else (best.1,(best.2.1 : ℤ)) := by
      rw [← hbest]
      exact if_neg hnone
    have hfirst : first = best.map fun b => (b.1,b.2.2) := hends.symm
    rw [hfound, hfirst]
    cases best with
    | none => exact ⟨rfl,rfl⟩
    | some b =>
      have hb := hindex b rfl
      simp only [Option.map_some, cutText]
      cases includeStop with
      | false =>
        refine ⟨rfl,?_⟩
        simp only [Bool.false_eq_true, if_false]
        rw [if_neg (by omega), Int.toNat_natCast, ← hb, Nat.add_sub_cancel]
      | true =>
        simp only [if_true]
        by_cases hall : outputText.length ≤ b.2.2
        · rw [if_pos hall]
          exact ⟨rfl,by rw [if_pos rfl, take_of_length_le hall]⟩
        · rw [if_neg hall]
          refine ⟨rfl,?_⟩
          dsimp only
          rw [if_neg (by omega), Int.toNat_natCast]

def textFrom (P : Params τ α) : List τ → List τ → List α
  | _, [] => []
  | done, t :: ts => P.decodeNext (done ++ [t]) ++ textFrom P (done ++ [t]) ts

omit [DecidableEq α] in
theorem textFrom_append (ts' : List τ) :
    textFrom P done (ts ++ ts') = textFrom P done ts ++ textFrom P (done ++ ts) ts' := by
  induction ts generalizing done with
  | nil => simp [textFrom]
  | cons t ts ih =>
    rw [cons_append, textFrom, textFrom, ih, append_assoc, append_assoc, singleton_append]

def textOf : List α := textFrom P [] ts

omit [DecidableEq α] in
theorem textOf_append (ts' : List τ) : textOf P (ts ++ ts') = textOf P ts ++ textFrom P ts ts' := by
  rw [textOf, textFrom_append, nil_append, textOf]

omit [DecidableEq α] in
theorem length_textOf_take_le (n : ℕ) : (textOf P (ts.take n)).length ≤ (textOf P ts).length := by
  have hsplit := textOf_append P (ts.take n) (ts.drop n)
  rw [take_append_drop] at hsplit
  rw [hsplit, length_append]
  omega

omit [DecidableEq α] in
/-- The detokenization loop appends the text of its tokens, and the search starts behind the tokens
before and the minimal ones. -/
theorem foldl_appendToken (hst : st.outputText = textOf P st.tokenIds) :
    ts.foldl (appendToken P) (st,st.outputText.length) = ({ st with
          tokenIds := st.tokenIds ++ ts
          outputText := textOf P (st.tokenIds ++ ts) },
        (textOf P ((st.tokenIds ++ ts).take (max st.tokenIds.length P.minTokens))).length) := by
  induction ts using reverseRecOn with
  | nil =>
    rw [append_nil, take_of_length_le (le_max_left _ _), ← hst]
    rfl
  | append_singleton ts t ih =>
    rw [foldl_append, ih, foldl_cons, foldl_nil, appendToken]
    dsimp only
    have htext : textOf P (st.tokenIds ++ ts) ++ P.decodeNext (st.tokenIds ++ ts ++ [t]) =
        textOf P (st.tokenIds ++ (ts ++ [t])) := by
      rw [← append_assoc, textOf_append P (st.tokenIds ++ ts) [t], textFrom, textFrom, append_nil]
    rw [htext, append_assoc]
    congr 1
    by_cases hmin : (st.tokenIds ++ (ts ++ [t])).length ≤ P.minTokens
    · -- still within the minimal tokens
      have hpos : P.minTokens ≠ 0 := by
        rw [length_append, length_append, length_singleton] at hmin
        omega
      rw [if_pos ⟨hpos,hmin⟩, take_of_length_le (by omega)]
    · rw [if_neg fun h => hmin h.2]
      have hle : max st.tokenIds.length P.minTokens ≤ (st.tokenIds ++ ts).length := by
        simp only [length_append, length_singleton] at hmin ⊢
        omega
      rw [← append_assoc, take_append_of_le_length hle]

def firstStop : Option (List α × ℕ) :=
  firstEnd P.stop (textOf P (done ++ ts))
    (textOf P ((done ++ ts).take (max done.length P.minTokens))).length
    (textOf P (done ++ ts)).length

theorem firstStop_nil : firstStop P done [] = none := by
  rw [firstStop, append_nil, take_of_length_le (le_max_left _ _), firstEnd_self]

theorem firstStop_of_le_minTokens {done ts : List τ} (hmin : (done ++ ts).length ≤ P.minTokens) :
    firstStop P done ts = none := by
  rw [firstStop, take_of_length_le (hmin.trans (le_max_right _ _)), firstEnd_self]

omit [DecidableEq α] in
theorem detokenize_eq {st : State τ α} (hst : st.outputText = textOf P st.tokenIds)
    (group : List τ) (stopTerminated : Bool) : detokenize P st group stopTerminated =
      ({ tokenIds := st.tokenIds ++ group
         outputText := textOf P (st.tokenIds ++ P.decoded group stopTerminated)
         lastOutputTextOffset := st.lastOutputTextOffset },
        (textOf P ((st.tokenIds ++ P.decoded group stopTerminated).take
          (max st.tokenIds.length P.minTokens))).length) := by
  rw [detokenize, foldl_appendToken P _ st hst]
  dsimp only
  split
  · rename_i hskip
    have hdecoded : P.decoded group stopTerminated = group.dropLast := if_pos hskip
    have hlast : group.dropLast ++ group.getLast?.toList = group := by
      cases group using reverseRecOn with
      | nil => rfl
      | append_singleton ts t => simp
    rw [hdecoded, append_assoc, hlast]
  · rename_i hskip
    have hdecoded : P.decoded group stopTerminated = group := if_neg hskip
    rw [hdecoded]

omit [DecidableEq α] in
theorem decoded_nil : P.decoded [] stopTerminated = [] := by
  rw [Params.decoded]
  split <;> rfl

omit [DecidableEq α] in
theorem length_decoded_le (group : List τ) (stopTerminated : Bool) :
    (P.decoded group stopTerminated).length ≤ group.length := by
  rw [Params.decoded]
  split
  · rw [length_dropLast]
    omega
  · exact le_rfl

theorem update_eq {P : Params τ α} (hstop : ∀ s ∈ P.stop, s ≠ []) {st : State τ α}
    (hst : st.outputText = textOf P st.tokenIds) (group : List τ) (stopTerminated : Bool) :
    let first := firstStop P st.tokenIds (P.decoded group stopTerminated)
    update P st group stopTerminated = (first.map Prod.fst,
      { tokenIds := st.tokenIds ++ group
        outputText := cutText P.includeStopStrInOutput
          (textOf P (st.tokenIds ++ P.decoded group stopTerminated)) first
        lastOutputTextOffset := st.lastOutputTextOffset }) := by
  intro first
  rw [update]
  split
  · rename_i hgroup
    have hnil : group = [] := by simpa using hgroup
    have hdecoded : P.decoded group stopTerminated = [] := by rw [hnil, decoded_nil]
    have hfirst : first = none := by
      change firstStop P _ (P.decoded group stopTerminated) = none
      rw [hdecoded, firstStop_nil]
    rw [hfirst, hdecoded, hnil, append_nil, cutText, ← hst]
    rfl
  rw [detokenize_eq P hst group]
  dsimp only
  split
  · obtain ⟨hstring,htext⟩ := checkStopStrings_eq P.includeStopStrInOutput hstop
      (length_textOf_take_le P (st.tokenIds ++ P.decoded group stopTerminated)
        (max st.tokenIds.length P.minTokens))
    change _ = first.map Prod.fst at hstring
    change _ = cutText _ _ first at htext
    rw [← hstring, ← htext]
    split
    · rename_i hnone
      rw [hnone]
      rfl
    · rename_i s cut hsome
      rw [hsome]
      split <;> rfl
  · rename_i hskipped
    -- without stop strings, or within the minimal tokens, there is nothing to find
    have hnone : first = none := by
      by_cases hnil : P.stop = []
      · exact firstEnd_eq_none.mpr fun _ _ _ => by rw [hnil]; rfl
      · apply firstStop_of_le_minTokens
        have hcount : ¬P.minTokens < (st.tokenIds ++ group).length := fun hlt => hskipped ⟨hnil,hlt⟩
        have hlen := length_decoded_le P group stopTerminated
        rw [length_append] at hcount ⊢
        omega
    rw [hnone]
    rfl

theorem firstStop_append (ts' : List τ) :
    firstStop P done (ts ++ ts') = (firstStop P done ts).or (firstStop P (done ++ ts) ts') := by
  by_cases hmin : (done ++ ts).length ≤ P.minTokens
  · -- all of the first tokens are minimal ones
    rw [firstStop_of_le_minTokens P hmin, Option.none_or, firstStop, firstStop, append_assoc]
    have hlen : max done.length P.minTokens = max (done ++ ts).length P.minTokens := by
      rw [length_append] at hmin ⊢
      omega
    rw [hlen]
  · have hle : max done.length P.minTokens ≤ (done ++ ts).length := by
      rw [length_append] at hmin ⊢
      omega
    have hsplit := textOf_append P (done ++ ts) ts'
    have hmid : (textOf P (done ++ ts)).length ≤ (textOf P (done ++ ts ++ ts')).length := by
      rw [hsplit, length_append]
      omega
    have hfirst : firstStop P done ts = firstEnd P.stop (textOf P (done ++ ts ++ ts'))
        (textOf P ((done ++ ts).take (max done.length P.minTokens))).length
        (textOf P (done ++ ts)).length := by
      rw [hsplit, firstEnd_append le_rfl, firstStop]
    have hsecond : firstStop P (done ++ ts) ts' = firstEnd P.stop (textOf P (done ++ ts ++ ts'))
        (textOf P (done ++ ts)).length (textOf P (done ++ ts ++ ts')).length := by
      rw [firstStop, max_eq_left (by omega), take_left]
    rw [hfirst, hsecond, firstStop, ← append_assoc, take_append_of_le_length hle]
    exact firstEnd_split _ (length_textOf_take_le P _ _) hmid

theorem cutText_firstStop_append {done ts : List τ} (ts' : List τ) {found : List α × ℕ}
    (hfound : firstStop P done ts = some found) :
    cutText P.includeStopStrInOutput (textOf P (done ++ (ts ++ ts'))) (some found) =
      cutText P.includeStopStrInOutput (textOf P (done ++ ts)) (some found) := by
  obtain ⟨-,hle,-,-⟩ := firstEnd_eq_some.mp hfound
  rw [← append_assoc, textOf_append, cutText, cutText, take_append_of_le_length]
  split <;> omega

omit [DecidableEq α] in
theorem decoded_append {ts' : List τ} (hts' : ts' ≠ []) (stopTerminated : Bool) :
    P.decoded (ts ++ ts') stopTerminated = ts ++ P.decoded ts' stopTerminated := by
  rw [Params.decoded, Params.decoded]
  split
  · rw [dropLast_append_of_ne_nil hts']
  · rfl

variable {groups : List (List τ)}

theorem run_of_flatten_eq_nil (hnil : groups.flatten = []) (st : State τ α) :
    run P stopTerminated groups st = (none,st) := by
  induction groups with
  | nil => rfl
  | cons group groups ih =>
    obtain ⟨hgroup,hgroups⟩ := append_eq_nil_iff.mp hnil
    rw [run, hgroup]
    exact ih hgroups

omit [DecidableEq α] in
theorem decoded_flatten_cons (group : List τ) (groups : List (List τ)) : groups.flatten = [] ∧
        P.decoded (group :: groups).flatten stopTerminated =
          P.decoded group (stopTerminated && groups.flatten.isEmpty) ∨
      P.decoded group (stopTerminated && groups.flatten.isEmpty) = group ∧
        P.decoded (group :: groups).flatten stopTerminated =
          group ++ P.decoded groups.flatten stopTerminated := by
  rw [flatten_cons]
  by_cases hnil : groups.flatten = []
  · left
    rw [hnil, append_nil, isEmpty_nil, Bool.and_true]
    exact ⟨rfl,rfl⟩
  · right
    have hempty : groups.flatten.isEmpty = false := by simpa using hnil
    rw [hempty, Bool.and_false, decoded_append P group hnil]
    exact ⟨rfl,rfl⟩

theorem run_eq {P : Params τ α} (hstop : ∀ s ∈ P.stop, s ≠ []) (stopTerminated : Bool)
    (groups : List (List τ)) {st : State τ α} (hst : st.outputText = textOf P st.tokenIds) :
    (run P stopTerminated groups st).1 =
        (firstStop P st.tokenIds (P.decoded groups.flatten stopTerminated)).map Prod.fst ∧
      (run P stopTerminated groups st).2.outputText = cutText P.includeStopStrInOutput
          (textOf P (st.tokenIds ++ P.decoded groups.flatten stopTerminated))
          (firstStop P st.tokenIds (P.decoded groups.flatten stopTerminated)) := by
  induction groups generalizing st with
  | nil =>
    rw [flatten_nil, decoded_nil, firstStop_nil, append_nil]
    exact ⟨rfl,hst⟩
  | cons group groups ih =>
    rw [run, update_eq hstop hst]
    rcases decoded_flatten_cons P stopTerminated group groups with ⟨hnil,hts⟩ | ⟨hgroup,hts⟩
    · -- no token comes later
      rw [hts]
      cases hfirst : firstStop P st.tokenIds
          (P.decoded group (stopTerminated && groups.flatten.isEmpty)) with
      | some found => exact ⟨rfl,rfl⟩
      | none =>
        dsimp
        rw [run_of_flatten_eq_nil P stopTerminated hnil]
        exact ⟨rfl,rfl⟩
    · rw [hts, hgroup, firstStop_append]
      cases hfirst : firstStop P st.tokenIds group with
      | some found =>
        dsimp
        exact ⟨rfl,(cutText_firstStop_append P _ hfirst).symm⟩
      | none =>
        dsimp
        rw [← append_assoc]
        exact ih rfl

omit [DecidableEq α] in
theorem getNextOutputText_delta {st : State τ α} (finished : Bool) (length : ℕ)
    (hlength : length = st.outputText.length-if finished then 0 else P.stopBufferLength)
    (hoff : st.lastOutputTextOffset ≤ length) : getNextOutputText P st finished true =
      ((st.outputText.take length).drop st.lastOutputTextOffset,
        { st with lastOutputTextOffset := length }) := by
  rw [getNextOutputText, if_pos rfl, ← hlength]
  split
  · rfl
  · rename_i hge
    have heq : st.lastOutputTextOffset = length := by omega
    rw [heq, drop_take, Nat.sub_self, take_zero, ← heq]

omit [DecidableEq α] in
theorem length_le_stopBufferLength {P : Params τ α} {s : List α} (hs : s ∈ P.stop)
    (hexclude : P.includeStopStrInOutput = false) : s.length ≤ P.stopBufferLength+1 := by
  have hne : P.stop ≠ [] := ne_nil_of_mem hs
  rw [Params.stopBufferLength, if_pos ⟨hne,hexclude⟩]
  have hmax : s.length ≤ (P.stop.map length).max?.getD 0 :=
    le_max?_getD_of_mem (mem_map_of_mem hs)
  omega

theorem streamed_le_cut {P : Params τ α} {done ts : List τ} {s : List α} {e : ℕ}
    (hfound : firstStop P done ts = some (s,e)) : (textOf P done).length-P.stopBufferLength ≤
        (if P.includeStopStrInOutput then e else e-s.length) := by
  obtain ⟨hlo,-,hpat,-⟩ := firstEnd_eq_some.mp hfound
  have hdone : (textOf P done).length < e := by
    refine lt_of_le_of_lt ?_ hlo
    have htake := length_textOf_take_le P ((done ++ ts).take (max done.length P.minTokens)) done.length
    rwa [take_take, min_eq_left (le_max_left _ _), take_left] at htake
  cases hexclude : P.includeStopStrInOutput with
  | true =>
    rw [if_pos rfl]
    omega
  | false =>
    rw [if_neg Bool.false_ne_true]
    have hlen := length_le_stopBufferLength (patternAt_eq_some hpat).1 hexclude
    omega

theorem take_cutText {P : Params τ α} {done : List τ} {n : ℕ}
    (hn : n ≤ (textOf P done).length-P.stopBufferLength) :
    (cutText P.includeStopStrInOutput (textOf P (done ++ ts)) (firstStop P done ts)).take n =
      (textOf P done).take n ∧
    n ≤ (cutText P.includeStopStrInOutput (textOf P (done ++ ts)) (firstStop P done ts)).length := by
  have hlen : (textOf P (done ++ ts)).length = (textOf P done).length+(textFrom P done ts).length := by
    rw [textOf_append, length_append]
  have htake : (textOf P (done ++ ts)).take n = (textOf P done).take n := by
    rw [textOf_append, take_append_of_le_length (by omega)]
  cases hfound : firstStop P done ts with
  | none => exact ⟨htake,by rw [cutText]; omega⟩
  | some found =>
    have hcut := hn.trans (streamed_le_cut hfound)
    rw [cutText, take_take, min_eq_left hcut, length_take]
    exact ⟨htake,le_min hcut (by omega)⟩

omit [DecidableEq α] in
theorem take_append_piece {text : List α} {off length : ℕ} (hoff : off ≤ length) :
    text.take off ++ (text.take length).drop off = text.take length := by
  have hsplit := take_append_drop off (text.take length)
  rwa [take_take, min_eq_left hoff] at hsplit

theorem stream_cons_finished {P : Params τ α} {stopTerminated : Bool} {group : List τ}
    {st st' : State τ α} {stopString : Option (List α)}
    (hupdate : update P st group (stopTerminated && groups.flatten.isEmpty) = (stopString,st'))
    (hfinished : stopString.isSome = true ∨ groups = [])
    (hoff : st'.lastOutputTextOffset ≤ st'.outputText.length) :
    st'.outputText.take st'.lastOutputTextOffset ++
      (stream P stopTerminated (group :: groups) st).flatten = st'.outputText := by
  have hflag : (stopString.isSome || groups.isEmpty) = true := by
    rcases hfinished with hsome | hnil
    · rw [hsome, Bool.true_or]
    · rw [hnil, isEmpty_nil, Bool.or_true]
  rw [stream, hupdate]
  dsimp only
  rw [hflag, if_pos rfl, getNextOutputText_delta P true st'.outputText.length rfl hoff,
    flatten_singleton, take_append_piece hoff, take_length]

def State.streamed : State τ α :=
  { st with lastOutputTextOffset := st.outputText.length-P.stopBufferLength }

theorem stream_cons_continue {P : Params τ α} {stopTerminated : Bool} {group : List τ}
    {st st' : State τ α}
    (hupdate : update P st group (stopTerminated && groups.flatten.isEmpty) = (none,st'))
    (hgroups : groups ≠ [])
    (hoff : st'.lastOutputTextOffset ≤ st'.outputText.length-P.stopBufferLength) :
    st'.outputText.take st'.lastOutputTextOffset ++
        (stream P stopTerminated (group :: groups) st).flatten =
      (st'.streamed P).outputText.take (st'.streamed P).lastOutputTextOffset ++
        (stream P stopTerminated groups (st'.streamed P)).flatten := by
  have hflag : ((none : Option (List α)).isSome || groups.isEmpty) = false := by
    rw [Option.isSome_none, Bool.false_or]
    simpa using hgroups
  rw [stream, hupdate]
  dsimp only
  rw [hflag, if_neg Bool.false_ne_true, getNextOutputText_delta P false _ rfl hoff,
    flatten_cons, ← append_assoc, if_neg Bool.false_ne_true, take_append_piece hoff]
  rfl

theorem stream_of_flatten_eq_nil (hne : groups ≠ []) (hnil : groups.flatten = []) {st : State τ α}
    (hoff : st.lastOutputTextOffset ≤ st.outputText.length-P.stopBufferLength) :
    st.outputText.take st.lastOutputTextOffset ++ (stream P stopTerminated groups st).flatten =
      st.outputText := by
  induction groups generalizing st with
  | nil => exact absurd rfl hne
  | cons group groups ih =>
    obtain ⟨hgroup,hgroups⟩ := append_eq_nil_iff.mp hnil
    have hupdate : update P st group (stopTerminated && groups.flatten.isEmpty) = (none,st) := by
      rw [hgroup]
      rfl
    by_cases hlast : groups = []
    · exact stream_cons_finished hupdate (.inr hlast) (by omega)
    · rw [stream_cons_continue hupdate hlast hoff]
      exact @ih hlast hgroups (st.streamed P) le_rfl

theorem stream_eq {P : Params τ α} (hstop : ∀ s ∈ P.stop, s ≠ []) (stopTerminated : Bool)
    (hne : groups ≠ []) {st : State τ α} (hst : st.outputText = textOf P st.tokenIds)
    (hoff : st.lastOutputTextOffset ≤ st.outputText.length-P.stopBufferLength) :
    st.outputText.take st.lastOutputTextOffset ++ (stream P stopTerminated groups st).flatten =
      (run P stopTerminated groups st).2.outputText := by
  induction groups generalizing st with
  | nil => exact absurd rfl hne
  | cons group groups ih =>
    have hupdate := update_eq hstop hst group (stopTerminated && groups.flatten.isEmpty)
    rw [hst] at hoff
    obtain ⟨htake,hle⟩ :=
      take_cutText (P.decoded group (stopTerminated && groups.flatten.isEmpty)) hoff
    rw [hst, ← htake]
    cases hfirst : firstStop P st.tokenIds
        (P.decoded group (stopTerminated && groups.flatten.isEmpty)) with
    | some found =>
      rw [hfirst] at hupdate hle
      rw [stream_cons_finished hupdate (.inl rfl) hle, run, hupdate]
      rfl
    | none =>
      rw [hfirst] at hupdate hle
      rw [run, hupdate]
      dsimp
      by_cases hlast : groups = []
      · rw [stream_cons_finished hupdate (.inr hlast) hle, hlast]
        rfl
      · have hmore : (textOf P st.tokenIds).length ≤ (textOf P (st.tokenIds ++
            P.decoded group (stopTerminated && groups.flatten.isEmpty))).length := by
          rw [textOf_append, length_append]
          omega
        rw [stream_cons_continue hupdate hlast (hoff.trans (Nat.sub_le_sub_right hmore _))]
        rcases decoded_flatten_cons P stopTerminated group groups with ⟨hnil,-⟩ | ⟨hgroup,-⟩
        · rw [run_of_flatten_eq_nil P stopTerminated hnil]
          exact stream_of_flatten_eq_nil P stopTerminated hlast hnil le_rfl
        · -- what the runner streams does not change what comes later
          have htext : cutText P.includeStopStrInOutput (textOf P (st.tokenIds ++
              P.decoded group (stopTerminated && groups.flatten.isEmpty))) none =
              textOf P (st.tokenIds ++ group) := by
            rw [hgroup, cutText]
          rw [(run_eq hstop stopTerminated groups htext).2]
          exact (ih hlast htext le_rfl).trans (run_eq hstop stopTerminated groups htext).2

/-- The outcome of a request and what is streamed of it. For every grouping of the tokens into updates the
stop string and the text are those of one token at a time, and the pieces streamed after each update make
up that text. -/
theorem detokenizer_batching (P : Params τ α) (hstop : ∀ s ∈ P.stop, s ≠ []) (stopTerminated : Bool)
    (tokens : List τ) (groups : List (List τ)) (hgroups : groups.flatten = tokens) :
    (run P stopTerminated groups .init).1 = (run P stopTerminated (tokens.map fun t => [t]) .init).1 ∧
      (run P stopTerminated groups .init).2.outputText =
        (run P stopTerminated (tokens.map fun t => [t]) .init).2.outputText ∧
      (stream P stopTerminated groups .init).flatten =
        (run P stopTerminated groups .init).2.outputText := by
  have hinit : (State.init : State τ α).outputText = textOf P (State.init : State τ α).tokenIds := rfl
  have hone : (tokens.map fun t => [t]).flatten = tokens := by
    rw [← flatMap_def, flatMap_singleton']
  obtain ⟨hstring,htext⟩ := run_eq hstop stopTerminated groups hinit
  obtain ⟨hstring',htext'⟩ := run_eq hstop stopTerminated (tokens.map fun t => [t]) hinit
  rw [hgroups] at hstring htext
  rw [hone] at hstring' htext'
  refine ⟨hstring.trans hstring'.symm,htext.trans htext'.symm,?_⟩
  by_cases hnil : groups = []
  · rw [hnil]
    rfl
  · exact stream_eq hstop stopTerminated hnil hinit (Nat.zero_le _)

private def stopParams : Params ℕ ℕ :=
  { stop := [[3, 4],[5, 6, 7]], minTokens := 1, includeStopStrInOutput := false
    decodeNext := fun ids => [3*ids.length, 3*ids.length+1, 3*ids.length+2] }

/-- A stop string that ends in the second token is found alike in one update of three tokens. -/
theorem detokenizer_batching_three :
    (run stopParams false [[0, 0, 0]] .init).1 = some [5, 6, 7] ∧
      (run stopParams false [[0],[0],[0]] .init).1 = some [5, 6, 7] ∧
      (stream stopParams false [[0],[0, 0]] .init).flatten = [3, 4] := by
  have hstop : ∀ s ∈ stopParams.stop, s ≠ [] := by decide
  have hall := detokenizer_batching stopParams hstop false [0, 0, 0] [[0, 0, 0]] rfl
  have htwo := detokenizer_batching stopParams hstop false [0, 0, 0] [[0],[0, 0]] rfl
  refine ⟨by decide,hall.1.symm.trans (by decide),htwo.2.2.trans (by decide)⟩

end MetaZenith.Detokenizer
