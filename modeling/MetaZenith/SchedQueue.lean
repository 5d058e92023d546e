import MetaZenith.SchedRequest

/-! The waiting queues: a deque under FCFS, a binary heap under PRIORITY. -/

namespace MetaZenith.Sched

inductive SchedulingPolicy
  | fcfs | priority
  deriving DecidableEq, Repr

section Heap

variable {α : Type} (lt : α → α → Bool)

def siftdown : ℕ → List α → ℕ → ℕ → List α
  | 0, heap, _, _ => heap
  | fuel+1, heap, startpos, pos =>
    if pos ≤ startpos then heap
    else
      let parentpos := (pos-1)/2
      match heap[pos]?, heap[parentpos]? with
      | some newitem, some parent =>
        if lt newitem parent then
          siftdown fuel ((heap.set pos parent).set parentpos newitem) startpos parentpos
        else heap
      | _, _ => heap

def siftupToLeaf : ℕ → List α → ℕ → List α × ℕ
  | 0, heap, pos => (heap,pos)
  | fuel+1, heap, pos =>
    let childpos := 2*pos+1
    match heap[pos]?, heap[childpos]? with
    | some item, some left =>
      let (child,smallest) := match heap[childpos+1]? with
        | some right => if lt left right then (left,childpos) else (right,childpos+1)
        | none => (left,childpos)
      siftupToLeaf fuel ((heap.set pos child).set smallest item) smallest
    | _, _ => (heap,pos)

def siftup (heap : List α) (pos : ℕ) : List α :=
  let (heap,leaf) := siftupToLeaf lt heap.length heap pos
  siftdown lt heap.length heap pos leaf

def heappush (heap : List α) (item : α) : List α :=
  siftdown lt (heap.length+1) (heap ++ [item]) 0 heap.length

def heappop : List α → Option (α × List α)
  | [] => none
  | [item] => some (item,[])
  | returnitem :: next :: rest =>
    let lastelt := (next :: rest).getLast (List.cons_ne_nil _ _)
    some (returnitem,siftup lt (lastelt :: (next :: rest).dropLast) 0)

def heapify (heap : List α) : List α :=
  ((List.range (heap.length/2)).reverse).foldl (siftup lt) heap

end Heap

section Queue

variable {α : Type} (policy : SchedulingPolicy) (lt : α → α → Bool)

variable (queue : List α)

def addRequest (r : α) : List α :=
  match policy with
  | .fcfs => queue ++ [r]
  | .priority => heappush lt queue r

def popRequest : Option (α × List α) :=
  match policy with
  | .fcfs => match queue with
    | [] => none
    | r :: rest => some (r,rest)
  | .priority => heappop lt queue

def prependRequest (r : α) : List α :=
  match policy with
  | .fcfs => r :: queue
  | .priority => heappush lt queue r

def iterRequests : ℕ → List α → List α
  | 0, _ => []
  | fuel+1, queue => match popRequest policy lt queue with
    | none => []
    | some (r,rest) => r :: iterRequests fuel rest

def prependRequests (requests : List α) : List α :=
  (iterRequests policy lt requests.length requests).foldl (prependRequest policy lt) queue

def removeRequests [DecidableEq α] (requests : List α) : List α :=
  let kept := queue.filter fun r => !requests.contains r
  match policy with
  | .fcfs => kept
  | .priority => heapify lt kept

end Queue

def removeAll {α : Type} [DecidableEq α] (lst items : List α) : List α :=
  match items with
  | [] => lst
  | [item] => lst.erase item
  | _ => lst.filter fun x => !items.contains x

section HeapPerm

variable {α : Type} (lt : α → α → Bool)

theorem set_swap_perm {heap : List α} {i j : ℕ} {a b : α} (hi : heap[i]? = some a)
    (hj : heap[j]? = some b) : ((heap.set i b).set j a).Perm heap := by
  obtain ⟨hi',rfl⟩ := List.getElem?_eq_some_iff.mp hi
  obtain ⟨hj',rfl⟩ := List.getElem?_eq_some_iff.mp hj
  exact List.set_set_perm hi' hj'

theorem siftdown_perm (fuel : ℕ) (heap : List α) (startpos pos : ℕ) :
    (siftdown lt fuel heap startpos pos).Perm heap := by
  induction fuel generalizing heap pos with
  | zero => exact .refl _
  | succ fuel ih =>
    rw [siftdown]
    split
    · exact .refl _
    dsimp only
    split
    · rename_i newitem parent hnew hparent
      split
      · exact (ih _ _).trans (set_swap_perm hnew hparent)
      · exact .refl _
    · exact .refl _

theorem siftupToLeaf_perm (fuel : ℕ) (heap : List α) (pos : ℕ) :
    (siftupToLeaf lt fuel heap pos).1.Perm heap := by
  induction fuel generalizing heap pos with
  | zero => exact .refl _
  | succ fuel ih =>
    rw [siftupToLeaf]
    split
    · rename_i item left hitem hleft
      cases hright : heap[2*pos+1+1]? with
      | none => exact (ih _ _).trans (set_swap_perm hitem hleft)
      | some right =>
        dsimp only
        split
        · exact (ih _ _).trans (set_swap_perm hitem hleft)
        · exact (ih _ _).trans (set_swap_perm hitem hright)
    · exact .refl _

theorem siftup_perm (heap : List α) (pos : ℕ) : (siftup lt heap pos).Perm heap :=
  (siftdown_perm lt _ _ _ _).trans (siftupToLeaf_perm lt _ _ _)

theorem heappush_perm (heap : List α) (item : α) : (heappush lt heap item).Perm (item :: heap) :=
  (siftdown_perm lt _ _ _ _).trans (List.perm_append_singleton item heap)

theorem heappop_perm {heap rest : List α} {item : α} (h : heappop lt heap = some (item,rest)) :
    (item :: rest).Perm heap := by
  match heap with
  | [] => cases h
  | [x] =>
    obtain ⟨rfl,rfl⟩ : x = item ∧ [] = rest := by simpa [heappop] using h
    exact .refl _
  | x :: y :: tail =>
    simp only [heappop, Option.some.injEq, Prod.mk.injEq] at h
    obtain ⟨rfl,rfl⟩ := h
    have hrest : ((y :: tail).getLast (List.cons_ne_nil _ _) :: (y :: tail).dropLast).Perm
        (y :: tail) := by
      have h := List.perm_append_singleton ((y :: tail).getLast (List.cons_ne_nil _ _))
        (y :: tail).dropLast
      rw [List.dropLast_append_getLast] at h
      exact h.symm
    exact ((siftup_perm lt _ _).trans hrest).cons x

theorem heapify_perm (heap : List α) : (heapify lt heap).Perm heap := by
  rw [heapify]
  generalize (List.range (heap.length/2)).reverse = positions
  induction positions generalizing heap with
  | nil => exact .refl _
  | cons i positions ih => exact (ih _).trans (siftup_perm lt heap i)

end HeapPerm

section QueuePerm

variable {α : Type} (policy : SchedulingPolicy) (lt : α → α → Bool)

variable (queue : List α)

theorem addRequest_perm (r : α) : (addRequest policy lt queue r).Perm (r :: queue) := by
  cases policy with
  | fcfs => exact List.perm_append_singleton r queue
  | priority => exact heappush_perm lt queue r

theorem prependRequest_perm (r : α) : (prependRequest policy lt queue r).Perm (r :: queue) := by
  cases policy with
  | fcfs => exact .refl _
  | priority => exact heappush_perm lt queue r

theorem popRequest_perm {queue rest : List α} {r : α}
    (h : popRequest policy lt queue = some (r,rest)) : (r :: rest).Perm queue := by
  cases policy with
  | fcfs =>
    cases queue with
    | nil => cases h
    | cons a queue =>
      obtain ⟨rfl,rfl⟩ : a = r ∧ queue = rest := by simpa [popRequest] using h
      exact .refl _
  | priority => exact heappop_perm lt h

theorem popRequest_eq_none {queue : List α} (h : popRequest policy lt queue = none) : queue = [] := by
  cases policy with
  | fcfs => cases queue with
    | nil => rfl
    | cons a queue => cases h
  | priority => cases queue with
    | nil => rfl
    | cons a queue => cases queue <;> cases h

theorem iterRequests_perm : (iterRequests policy lt queue.length queue).Perm queue := by
  generalize hn : queue.length = n
  induction n generalizing queue with
  | zero => rw [List.eq_nil_of_length_eq_zero hn]; exact .refl _
  | succ n ih =>
    rw [iterRequests]
    split
    · rename_i hnone
      rw [popRequest_eq_none policy lt hnone]
    · rename_i r rest hpop
      have hperm := popRequest_perm policy lt hpop
      have hlen : rest.length = n := by
        have h := hperm.length_eq
        rw [List.length_cons, hn] at h
        omega
      exact ((ih rest hlen).cons r).trans hperm

theorem prependRequests_perm (requests : List α) :
    (prependRequests policy lt queue requests).Perm (requests ++ queue) := by
  have hfold (l : List α) (queue : List α) :
      (l.foldl (prependRequest policy lt) queue).Perm (l ++ queue) := by
    induction l generalizing queue with
    | nil => exact .refl _
    | cons r l ih =>
      have h := (ih _).trans ((prependRequest_perm policy lt queue r).append_left l)
      exact h.trans List.perm_middle
  exact (hfold _ queue).trans ((iterRequests_perm policy lt requests).append_right queue)

theorem removeRequests_perm [DecidableEq α] (requests : List α) :
    (removeRequests policy lt queue requests).Perm (queue.filter fun r => !requests.contains r) := by
  cases policy with
  | fcfs => exact .refl _
  | priority => exact heapify_perm lt _

end QueuePerm

theorem removeAll_eq_filter {α : Type} [DecidableEq α] {lst : List α} (h : lst.Nodup)
    (items : List α) : removeAll lst items = lst.filter fun x => !items.contains x := by
  match items with
  | [] => simp [removeAll]
  | [item] =>
    rw [removeAll, h.erase_eq_filter]
    apply List.filter_congr
    intro x _
    simp [bne, Bool.beq_eq_decide_eq]
  | a :: b :: rest => rfl

end MetaZenith.Sched
