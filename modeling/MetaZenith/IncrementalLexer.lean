import MetaZenith.LongestMatch

/-! The incremental lexer of the parser engine. Its buffer holds a text only while that text is a
proper prefix of a literal, so the tokens do not depend on how the text is cut into chunks. -/

namespace MetaZenith.ParserEngine

open List

variable {shape : LexerShape} {buffer rest text : Text} {m : Text × String} {final : Bool}

open LongestMatch

abbrev Text := List Char

instance : LawfulBEq Text := inferInstance

def contentTerminal : String := "__CONTENT__"

structure LexToken where
  terminal : String
  value : Text
  deriving DecidableEq, Repr

/-- `LexerShape`, where every terminal is a literal: the literals with their names, in the order in
which they are tried. -/
structure LexerShape where
  literalStrings : List (Text × String)

namespace LexerShape

/-- The terminals sorted by the length of their patterns, the longest first. A pattern is the
escaped literal. -/
def ofTerminals (patternLength : Text → ℕ) (terminals : List (String × Text)) : LexerShape where
  literalStrings := (terminals.map Prod.swap).insertionSort fun a b =>
    patternLength b.1 ≤ patternLength a.1

def literalFirstChars (shape : LexerShape) : List Char := shape.literalStrings.filterMap (·.1.head?)

def prefixSet (shape : LexerShape) : List Text :=
  shape.literalStrings.flatMap fun l => (List.range' 1 (l.1.length-1)).map l.1.take

def literalsByFirst (shape : LexerShape) (first : Char) : List (Text × String) :=
  shape.literalStrings.filter fun l => l.1.head? = some first

def hasPotential (shape : LexerShape) (text : Text) : Bool :=
  text.any fun ch => decide (ch ∈ shape.literalFirstChars)

def compatible (shape : LexerShape) (text : Text) : Bool :=
  shape.literalStrings.any fun l =>
    decide (text.take (min text.length l.1.length) = l.1.take (min text.length l.1.length))

def findContentBoundary (shape : LexerShape) (buffer : Text) : ℕ :=
  ((List.range' 1 (buffer.length-1)).find? fun i =>
    (buffer[i]?.any fun ch => decide (ch ∈ shape.literalFirstChars)) &&
      shape.compatible (buffer.drop i)).getD buffer.length

def bestMatch (shape : LexerShape) (buffer : Text) : Option (Text × String) :=
  match buffer with
  | [] => none
  | first :: _ => longest (shape.literalsByFirst first) buffer

def emit (tok : LexToken) (r : List LexToken × Text) : List LexToken × Text := (tok :: r.1,r.2)

def drainLoop (shape : LexerShape) (final : Bool) : ℕ → Text → List LexToken × Text
  | 0, buffer => ([],buffer)
  | _+1, [] => ([],[])
  | fuel+1, first :: rest =>
    let buffer := first :: rest
    if !shape.literalFirstChars.isEmpty && !shape.hasPotential buffer then
      ([⟨contentTerminal,buffer⟩],[])
    else if buffer ∈ shape.prefixSet ∧ final = false then
      match shape.bestMatch buffer with
      | some (lit,name) =>
        if (shape.literalsByFirst first).any fun l =>
            decide (lit.length < l.1.length ∧ buffer <+: l.1) then
          ([],buffer)
        else emit ⟨name,lit⟩ (shape.drainLoop final fuel (buffer.drop lit.length))
      | none => ([],buffer)
    else
      match shape.bestMatch buffer with
      | some (lit,name) => emit ⟨name,lit⟩ (shape.drainLoop final fuel (buffer.drop lit.length))
      | none =>
        let contentEnd := shape.findContentBoundary buffer
        if 0 < contentEnd then
          emit ⟨contentTerminal,buffer.take contentEnd⟩
            (shape.drainLoop final fuel (buffer.drop contentEnd))
        else emit ⟨contentTerminal,[first]⟩ (shape.drainLoop final fuel rest)

def drain (shape : LexerShape) (final : Bool) (buffer : Text) : List LexToken × Text :=
  shape.drainLoop final buffer.length buffer

def feed (shape : LexerShape) (buffer text : Text) : List LexToken × Text :=
  if buffer.isEmpty && !shape.literalFirstChars.isEmpty && !shape.hasPotential text then
    ([⟨contentTerminal,text⟩],buffer)
  else shape.drain false (buffer ++ text)

def flush (shape : LexerShape) (buffer : Text) : List LexToken × Text :=
  let (tokens,buffer) := if buffer.isEmpty then ([],buffer) else shape.drain true buffer
  if buffer.isEmpty then (tokens,buffer) else (tokens ++ [⟨contentTerminal,buffer⟩],[])

theorem mem_prefixSet : text ∈ shape.prefixSet ↔
      text ≠ [] ∧ ∃ l ∈ shape.literalStrings, text <+: l.1 ∧ text ≠ l.1 := by
  simp only [prefixSet, mem_flatMap, mem_map, mem_range'_1]
  constructor
  · rintro ⟨l,hl,i,hi,rfl⟩
    have hlen : (l.1.take i).length = i := length_take_of_le (by omega)
    refine ⟨ne_nil_of_length_pos (by omega),l,hl,List.take_prefix _ _,fun h => ?_⟩
    have := congrArg List.length h
    omega
  · rintro ⟨hne,l,hl,hp,hdiff⟩
    have hpos := length_pos_iff.mpr hne
    have hlt : text.length < l.1.length :=
      lt_of_le_of_ne hp.length_le fun h => hdiff (hp.eq_of_length h)
    exact ⟨l,hl,text.length,by omega,(prefix_iff_eq_take.mp hp).symm⟩

theorem head_mem_literalFirstChars {l : Text × String} (hl : l ∈ shape.literalStrings) {c : Char}
    (h : l.1 = c :: rest) : c ∈ shape.literalFirstChars :=
  mem_filterMap.mpr ⟨l,hl,by rw [h]; rfl⟩

theorem barren_of_not_compatible (h : shape.compatible text = false) :
    Barren shape.literalStrings text := by
  intro l hl
  have hne := any_eq_false.mp h l hl
  rw [decide_eq_true_eq] at hne
  constructor
  · intro hp
    apply hne
    rw [min_eq_right hp.length_le, take_length, ← prefix_iff_eq_take.mp hp]
  · intro hp
    apply hne
    rw [min_eq_left hp.length_le, take_length, ← prefix_iff_eq_take.mp hp]

theorem findContentBoundary_spec (hne : buffer ≠ []) :
    0 < shape.findContentBoundary buffer ∧ shape.findContentBoundary buffer ≤ buffer.length ∧
    ∀ i, 0 < i → i < shape.findContentBoundary buffer →
      ((buffer[i]?.any fun ch => decide (ch ∈ shape.literalFirstChars)) &&
        shape.compatible (buffer.drop i)) = false := by
  unfold findContentBoundary
  cases hfind : (List.range' 1 (buffer.length-1)).find? fun i =>
      (buffer[i]?.any fun ch => decide (ch ∈ shape.literalFirstChars)) &&
        shape.compatible (buffer.drop i) with
  | none =>
    rw [find?_range'_eq_none] at hfind
    refine ⟨length_pos_iff.mpr hne,le_rfl,fun i hi hlt => ?_⟩
    rw [Option.getD_none] at hlt
    exact Bool.not_eq_eq_eq_not.mp (hfind i hi (by omega))
  | some j =>
    obtain ⟨-,hmem,hfirst⟩ := find?_range'_eq_some.mp hfind
    have hj := mem_range'_1.mp hmem
    rw [Option.getD_some]
    exact ⟨by omega,by omega,fun i hi hlt => Bool.not_eq_eq_eq_not.mp (hfirst i hi hlt)⟩

def expand (tok : LexToken) : List (Char ⊕ LexToken) :=
  if tok.terminal = contentTerminal then tok.value.map .inl else [.inr tok]

def lexAll (shape : LexerShape) (text : Text) : List (Char ⊕ LexToken) :=
  (munch shape.literalStrings text).flatMap fun
    | .inl c => [.inl c]
    | .inr (lit,name) => expand ⟨name,lit⟩

theorem lexAll_content {front : Text}
    (h : munch shape.literalStrings text = front.map .inl ++ munch shape.literalStrings rest) :
    shape.lexAll text = expand ⟨contentTerminal,front⟩ ++ shape.lexAll rest := by
  rw [lexAll, h, flatMap_append]
  refine congrArg (· ++ shape.lexAll rest) ?_
  rw [expand, if_pos rfl, flatMap_map]
  exact (map_eq_flatMap ..).symm

structure Lexed (shape : LexerShape) (final : Bool) (text : Text) (r : List LexToken × Text) :
    Prop where
  tokens : ∀ more, (final = true → more = []) →
    shape.lexAll (text ++ more) = r.1.flatMap expand ++ shape.lexAll (r.2 ++ more)
  kept : final = true → r.2 = []
  nonempty : text ≠ [] → ∀ tok ∈ r.1, tok.value ≠ []

theorem Lexed.emit {tok : LexToken} {r : List LexToken × Text} (hr : shape.Lexed final rest r)
    (htok : ∀ more, (final = true → more = []) →
      shape.lexAll (text ++ more) = expand tok ++ shape.lexAll (rest ++ more))
    (hval : tok.value ≠ []) (hrest : rest = [] → r.1 = []) :
    shape.Lexed final text (emit tok r) where
  tokens more hmore := by
    rw [htok more hmore, hr.tokens more hmore, ← append_assoc]
    rfl
  kept := hr.kept
  nonempty _ tok' htok' := by
    rcases mem_cons.mp htok' with rfl | htok'
    · exact hval
    · by_cases hnil : rest = []
      · rw [hrest hnil] at htok'
        cases htok'
      · exact hr.nonempty hnil tok' htok'

theorem Lexed.keep (shape : LexerShape) (text : Text) : shape.Lexed false text ([],text) where
  tokens _ _ := rfl
  kept h := nomatch h
  nonempty _ _ h := nomatch h

theorem drainLoop_nil (shape : LexerShape) (final : Bool) (fuel : ℕ) :
    (shape.drainLoop final fuel []).1 = [] := by
  cases fuel <;> rfl

theorem exists_longer_of_mem_prefixSet {first : Char} (hheld : first :: rest ∈ shape.prefixSet)
    (h : longest shape.literalStrings (first :: rest) = some m) :
    ((shape.literalsByFirst first).any fun l =>
      decide (m.1.length < l.1.length ∧ first :: rest <+: l.1)) = true := by
  obtain ⟨-,l,hl,hp,hdiff⟩ := mem_prefixSet.mp hheld
  have hlt : (first :: rest).length < l.1.length :=
    lt_of_le_of_ne hp.length_le fun h => hdiff (hp.eq_of_length h)
  have hhead : l.1.head? = some first := by
    obtain ⟨tail,htail⟩ := hp
    rw [← htail]
    rfl
  refine any_eq_true.mpr ⟨l,mem_filter.mpr ⟨hl,decide_eq_true hhead⟩,?_⟩
  exact decide_eq_true ⟨(longest_eq_some h).2.length_le.trans_lt hlt,hp⟩

def lexChunks (shape : LexerShape) (buffer : Text) : List Text → List LexToken
  | [] => (shape.flush buffer).1
  | chunk :: chunks =>
    (shape.feed buffer chunk).1 ++ shape.lexChunks (shape.feed buffer chunk).2 chunks

def pushToken (tok : LexToken) : List LexToken → List LexToken
  | [] => [tok]
  | next :: rest =>
    if tok.terminal = contentTerminal ∧ next.terminal = contentTerminal then
      ⟨contentTerminal,tok.value ++ next.value⟩ :: rest
    else tok :: next :: rest

def mergeContent (tokens : List LexToken) : List LexToken := tokens.foldr pushToken []

def isEmptyContent (tok : LexToken) : Bool := tok.terminal = contentTerminal ∧ tok.value = []

def itemToken : Char ⊕ (Text × String) → LexToken
  | .inl c => ⟨contentTerminal,[c]⟩
  | .inr (lit,name) => ⟨name,lit⟩

def unexpand : Char ⊕ LexToken → LexToken
  | .inl c => ⟨contentTerminal,[c]⟩
  | .inr tok => tok

theorem foldr_pushToken_content (value : Text) (hne : value ≠ []) (rest : List LexToken) :
    (value.map fun c => ⟨contentTerminal,[c]⟩).foldr pushToken rest =
      pushToken ⟨contentTerminal,value⟩ rest := by
  induction value with
  | nil => exact absurd rfl hne
  | cons c value ih =>
    by_cases hnil : value = []
    · rw [hnil]
      rfl
    · rw [map_cons, foldr_cons, ih hnil]
      cases rest with
      | nil => simp [pushToken]
      | cons next rest =>
        by_cases hnext : next.terminal = contentTerminal <;> simp [pushToken, hnext]

theorem mergeContent_eq {tokens : List LexToken}
    (h : ∀ tok ∈ tokens, tok.terminal = contentTerminal → tok.value ≠ []) :
    mergeContent tokens = mergeContent ((tokens.flatMap expand).map unexpand) := by
  induction tokens with
  | nil => rfl
  | cons tok tokens ih =>
    have ih := ih fun t ht => h t (mem_cons_of_mem _ ht)
    have hpush : mergeContent (tok :: tokens) = pushToken tok (mergeContent tokens) := rfl
    rw [hpush, ih, flatMap_cons, map_append, mergeContent, mergeContent, foldr_append, expand]
    split
    · case isTrue hterm =>
      rw [map_map]
      refine Eq.trans ?_ (foldr_pushToken_content _ (h tok mem_cons_self hterm) _).symm
      rw [← hterm]
    · rfl

theorem lexAll_eq (shape : LexerShape) (text : Text) :
    shape.lexAll text = ((munch shape.literalStrings text).map itemToken).flatMap expand := by
  rw [lexAll, flatMap_map]
  refine congrArg (flatMap · _) (funext fun item => ?_)
  rcases item with c | ⟨lit,name⟩
  · simp [itemToken, expand]
  · rfl

theorem flatMap_value (tokens : List LexToken) :
    tokens.flatMap (·.value) = ((tokens.flatMap expand).map unexpand).flatMap (·.value) := by
  rw [flatMap_map, flatMap_assoc]
  refine congrArg (flatMap · tokens) (funext fun tok => ?_)
  rw [expand]
  split
  · rw [flatMap_map]
    exact (flatMap_singleton' _).symm
  · exact (append_nil _).symm

theorem LeftmostLongest.values {lits : List (Text × String)} {items : List (Char ⊕ (Text × String))}
    (h : LeftmostLongest lits text items) : (items.map itemToken).flatMap (·.value) = text := by
  induction h with
  | nil => rfl
  | literal _ _ _ ih => rw [map_cons, flatMap_cons, ih]; rfl
  | letter _ _ ih => rw [map_cons, flatMap_cons, ih]; rfl

section NonEmptyLiterals

variable (hlits : ∀ l ∈ shape.literalStrings, l.1 ≠ [])

include hlits

theorem bestMatch_eq (buffer : Text) :
    shape.bestMatch buffer = longest shape.literalStrings buffer := by
  cases buffer with
  | nil =>
    refine (longest_eq_none fun l hl hp => hlits l hl (prefix_nil.mp hp)).symm
  | cons first rest =>
    have hskip (lits : List (Text × String)) (hne : ∀ l ∈ lits, l.1 ≠ [])
        (best : Option (Text × String)) :
        (lits.filter fun l => decide (l.1.head? = some first)).foldl (longer (first :: rest)) best =
          lits.foldl (longer (first :: rest)) best := by
      induction lits generalizing best with
      | nil => rfl
      | cons l lits ih =>
        have ih := ih fun l' hl' => hne l' (mem_cons_of_mem _ hl')
        by_cases hhead : l.1.head? = some first
        · rw [filter_cons_of_pos (by simpa using hhead), foldl_cons, foldl_cons, ih]
        · -- a literal with another first character is not at the front
          have hnot : ¬l.1 <+: first :: rest := by
            intro hp
            obtain ⟨c,tail,hl⟩ := exists_cons_of_ne_nil (hne l mem_cons_self)
            rw [hl, cons_prefix_cons] at hp
            exact hhead (by rw [hl, hp.1]; rfl)
          have hl : longer (first :: rest) best l = best := by
            simp [longer, hnot]
          rw [filter_cons_of_neg (by simpa using hhead), foldl_cons, hl, ih]
    exact hskip _ hlits none

theorem longest_eq_none_of_no_potential {c : Char} (hc : c ∉ shape.literalFirstChars) (rest : Text) :
    longest shape.literalStrings (c :: rest) = none := by
  refine longest_eq_none fun l hl hp => hc ?_
  obtain ⟨c',tail,heq⟩ := exists_cons_of_ne_nil (hlits l hl)
  rw [heq, cons_prefix_cons] at hp
  exact head_mem_literalFirstChars hl (hp.1 ▸ heq)

theorem munch_append_of_no_potential (h : shape.hasPotential text = false) (rest : Text) :
    munch shape.literalStrings (text ++ rest) = text.map .inl ++ munch shape.literalStrings rest := by
  refine munch_append_of_barren text rest fun i hi => ?_
  rw [drop_eq_getElem_cons hi]
  refine longest_eq_none_of_no_potential hlits ?_ _
  have hall := any_eq_false.mp h text[i] (getElem_mem hi)
  simpa using hall

theorem longest_eq_none_before_boundary {i : ℕ} (hi : 0 < i)
    (hlt : i < shape.findContentBoundary buffer) (hlen : i < buffer.length) (more : Text) :
    longest shape.literalStrings (buffer.drop i ++ more) = none := by
  have hcheck := (findContentBoundary_spec (ne_nil_of_length_pos (Nat.zero_lt_of_lt hlen))).2.2 i hi hlt
  rcases Bool.and_eq_false_iff.mp hcheck with hchar | hcompat
  · rw [drop_eq_getElem_cons hlen, cons_append]
    refine longest_eq_none_of_no_potential hlits ?_ _
    simpa [getElem?_eq_getElem hlen] using hchar
  · exact longest_append_of_barren (barren_of_not_compatible hcompat) more

theorem lexAll_terminal (h : longest shape.literalStrings text = some m) :
    shape.lexAll text = expand ⟨m.2,m.1⟩ ++ shape.lexAll (text.drop m.1.length) := by
  rw [lexAll, munch_some hlits h, flatMap_cons]
  rfl

theorem lexAll_terminal_append (hsettled : final = false → buffer ∉ shape.prefixSet) (hne : buffer ≠ [])
    (h : longest shape.literalStrings buffer = some m) (more : Text)
    (hmore : final = true → more = []) : shape.lexAll (buffer ++ more) =
      expand ⟨m.2,m.1⟩ ++ shape.lexAll (buffer.drop m.1.length ++ more) := by
  have hlong : longest shape.literalStrings (buffer ++ more) = some m := by
    cases final with
    | true => rw [hmore rfl, append_nil, h]
    | false =>
      rw [longest_append _ more, h]
      intro l hl hp
      by_contra hdiff
      exact hsettled rfl (mem_prefixSet.mpr ⟨hne,l,hl,hp,hdiff⟩)
  rw [lexAll_terminal hlits hlong, drop_append_of_le_length (longest_eq_some h).2.length_le]

theorem lexAll_content_append (hsettled : final = false → buffer ∉ shape.prefixSet) (hne : buffer ≠ [])
    (h : longest shape.literalStrings buffer = none) (more : Text)
    (hmore : final = true → more = []) : shape.lexAll (buffer ++ more) =
      expand ⟨contentTerminal,buffer.take (shape.findContentBoundary buffer)⟩ ++
        shape.lexAll (buffer.drop (shape.findContentBoundary buffer) ++ more) := by
  obtain ⟨-,hle,-⟩ := @findContentBoundary_spec shape _ hne
  apply lexAll_content
  rw [← munch_append_of_barren, ← append_assoc, take_append_drop]
  intro i hi
  rw [length_take] at hi
  have hsplit : (buffer.take (shape.findContentBoundary buffer)).drop i ++
      (buffer.drop (shape.findContentBoundary buffer) ++ more) = buffer.drop i ++ more := by
    rw [← append_assoc, ← drop_append_of_le_length (by rw [length_take]; omega), take_append_drop]
  rw [hsplit]
  rcases Nat.eq_zero_or_pos i with rfl | hpos
  · -- at the front nothing matches, and nothing can match later
    cases final with
    | true => rw [hmore rfl, append_nil, drop_zero, h]
    | false =>
      rw [drop_zero, longest_append _ more, h]
      intro l hl hp
      by_contra hdiff
      exact hsettled rfl (mem_prefixSet.mpr ⟨hne,l,hl,hp,hdiff⟩)
  · exact longest_eq_none_before_boundary hlits hpos (by omega) (by omega) more

theorem Lexed.round {fuel : ℕ} {first : Char}
    (hsettled : final = false → first :: rest ∉ shape.prefixSet)
    (hfuel : (first :: rest).length ≤ fuel+1) (ih : ∀ buffer : Text, buffer.length ≤ fuel →
      shape.Lexed final buffer (shape.drainLoop final fuel buffer)) :
    shape.Lexed final (first :: rest) (match shape.bestMatch (first :: rest) with
      | some (lit,name) =>
        LexerShape.emit ⟨name,lit⟩ (shape.drainLoop final fuel ((first :: rest).drop lit.length))
      | none =>
        if 0 < shape.findContentBoundary (first :: rest) then
          LexerShape.emit ⟨contentTerminal,(first :: rest).take (shape.findContentBoundary (first :: rest))⟩
            (shape.drainLoop final fuel
              ((first :: rest).drop (shape.findContentBoundary (first :: rest))))
        else LexerShape.emit ⟨contentTerminal,[first]⟩ (shape.drainLoop final fuel rest)) := by
  have hnil (buffer : Text) (h : buffer = []) : (shape.drainLoop final fuel buffer).1 = [] := by
    rw [h, drainLoop_nil]
  have hne : first :: rest ≠ [] := cons_ne_nil _ _
  rw [bestMatch_eq hlits]
  cases hbest : longest shape.literalStrings (first :: rest) with
  | some m =>
    have hlit := hlits m (longest_eq_some hbest).1
    have hpos := length_pos_iff.mpr hlit
    refine (ih _ ?_).emit (fun more hmore => ?_) hlit (hnil _)
    · rw [length_drop]
      omega
    · exact lexAll_terminal_append hlits hsettled hne hbest more hmore
  | none =>
    obtain ⟨hpos,hle,-⟩ := @findContentBoundary_spec shape _ hne
    simp only [if_pos hpos]
    refine (ih _ ?_).emit (fun more hmore => ?_) ?_ (hnil _)
    · rw [length_drop]
      omega
    · exact lexAll_content_append hlits hsettled hne hbest more hmore
    · apply ne_nil_of_length_pos
      rw [length_take]
      omega

theorem lexed_drainLoop (final : Bool) (fuel : ℕ) (buffer : Text) (hfuel : buffer.length ≤ fuel) :
    shape.Lexed final buffer (shape.drainLoop final fuel buffer) := by
  induction fuel generalizing buffer with
  | zero =>
    rw [length_eq_zero_iff.mp (Nat.le_zero.mp hfuel)]
    exact ⟨fun _ _ => rfl,fun _ => rfl,fun _ _ h => nomatch h⟩
  | succ fuel ih =>
    cases buffer with
    | nil => exact ⟨fun _ _ => rfl,fun _ => rfl,fun _ _ h => nomatch h⟩
    | cons first rest =>
      simp only [drainLoop]
      by_cases hfast : (!shape.literalFirstChars.isEmpty && !shape.hasPotential (first :: rest)) = true
      · -- no literal can start in the buffer
        have hno : shape.hasPotential (first :: rest) = false := by
          simpa using (Bool.and_eq_true_iff.mp hfast).2
        rw [if_pos hfast]
        refine ⟨fun more _ => ?_,fun _ => rfl,fun _ tok htok => ?_⟩
        · rw [flatMap_singleton]
          exact lexAll_content (munch_append_of_no_potential hlits hno more)
        · rw [mem_singleton.mp htok]
          exact cons_ne_nil _ _
      rw [if_neg hfast]
      by_cases hheld : first :: rest ∈ shape.prefixSet ∧ final = false
      · rw [if_pos hheld, bestMatch_eq hlits, hheld.2]
        cases hbest : longest shape.literalStrings (first :: rest) with
        | some m =>
          simp only [exists_longer_of_mem_prefixSet hheld.1 hbest, if_true]
          exact .keep shape _
        | none => exact .keep shape _
      · rw [if_neg hheld]
        exact .round hlits (fun hfinal hmem => hheld ⟨hmem,hfinal⟩) hfuel ih

/-- Feeding a chunk returns the first tokens of the text so far, whatever may follow. -/
theorem lexed_feed (buffer text : Text) :
    shape.Lexed false (buffer ++ text) (shape.feed buffer text) := by
  unfold feed
  split
  · case isTrue hfast =>
    rw [Bool.and_eq_true, Bool.and_eq_true, List.isEmpty_iff] at hfast
    obtain ⟨⟨rfl,-⟩,hno⟩ := hfast
    refine ⟨fun more _ => ?_,fun h => (nomatch h),fun hne tok htok => ?_⟩
    · rw [flatMap_singleton]
      exact lexAll_content (munch_append_of_no_potential hlits (by simpa using hno) more)
    · rw [mem_singleton.mp htok]
      exact hne
  · exact lexed_drainLoop hlits false _ _ le_rfl

theorem flush_eq_drain (hne : buffer ≠ []) : shape.flush buffer = shape.drain true buffer := by
  have hkept := (lexed_drainLoop hlits true _ buffer le_rfl).kept rfl
  simp [flush, hne, drain, hkept, Prod.ext_iff]

theorem lexed_flush (buffer : Text) :
    shape.lexAll buffer = (shape.flush buffer).1.flatMap expand ∧ (shape.flush buffer).2 = [] := by
  by_cases hnil : buffer = []
  · subst hnil
    exact ⟨by simp [lexAll, munch, flush],rfl⟩
  · have hlexed : shape.Lexed true buffer (shape.drain true buffer) :=
      lexed_drainLoop hlits true _ _ le_rfl
    have hkept := hlexed.kept rfl
    have htokens := hlexed.tokens [] fun _ => rfl
    rw [hkept, append_nil] at htokens
    rw [flush_eq_drain hlits hnil]
    exact ⟨by simpa [lexAll, munch] using htokens,hkept⟩

theorem lexChunks_expand (buffer : Text) (chunks : List Text) :
    (shape.lexChunks buffer chunks).flatMap expand = shape.lexAll (buffer ++ chunks.flatten) := by
  induction chunks generalizing buffer with
  | nil =>
    rw [flatten_nil, append_nil]
    exact (lexed_flush hlits buffer).1.symm
  | cons chunk chunks ih =>
    have hfeed := (lexed_feed hlits buffer chunk).tokens chunks.flatten fun h => nomatch h
    rw [lexChunks, flatMap_append, ih, ← hfeed, flatten_cons, append_assoc]

theorem lexChunks_ne_nil (buffer : Text) {chunks : List Text} (hchunks : ∀ chunk ∈ chunks, chunk ≠ []) :
    ∀ tok ∈ shape.lexChunks buffer chunks, tok.value ≠ [] := by
  induction chunks generalizing buffer with
  | nil =>
    intro tok htok
    by_cases hnil : buffer = []
    · subst hnil
      cases htok
    · rw [lexChunks, flush_eq_drain hlits hnil] at htok
      exact (lexed_drainLoop hlits true _ _ le_rfl).nonempty hnil tok htok
  | cons chunk chunks ih =>
    intro tok htok
    rcases mem_append.mp htok with htok | htok
    · refine (lexed_feed hlits buffer chunk).nonempty (fun hnil => ?_) tok htok
      exact hchunks chunk mem_cons_self (append_eq_nil_iff.mp hnil).2
    · exact ih _ (fun c hc => hchunks c (mem_cons_of_mem _ hc)) tok htok

theorem itemToken_ne_nil {items : List (Char ⊕ (Text × String))}
    (h : LeftmostLongest shape.literalStrings text items) :
    ∀ tok ∈ items.map itemToken, tok.value ≠ [] := by
  induction h with
  | nil => exact fun _ h => nomatch h
  | literal hmem _ _ ih => exact forall_mem_cons.mpr ⟨hlits _ hmem,ih⟩
  | letter _ _ ih => exact forall_mem_cons.mpr ⟨cons_ne_nil _ _,ih⟩

/-- Only an empty chunk makes the lexer return a token that the whole text does not have, and that
token is an empty content token. -/
theorem lexChunks_leftmostLongest
    (chunks : List Text) :
    ∃ items, LeftmostLongest shape.literalStrings chunks.flatten items ∧
      mergeContent ((shape.lexChunks [] chunks).filter (!isEmptyContent ·)) =
        mergeContent (items.map itemToken) ∧
      ((∀ chunk ∈ chunks, chunk ≠ []) →
        mergeContent (shape.lexChunks [] chunks) = mergeContent (items.map itemToken)) ∧
      (shape.lexChunks [] chunks).flatMap (·.value) = chunks.flatten := by
  have hitems := leftmostLongest_munch hlits chunks.flatten
  have hall := (lexChunks_expand hlits [] chunks).trans (shape.lexAll_eq _)
  rw [nil_append] at hall
  have hmerge {tokens : List LexToken}
      (hne : ∀ tok ∈ tokens, tok.terminal = contentTerminal → tok.value ≠ [])
      (heq : tokens.flatMap expand = (shape.lexChunks [] chunks).flatMap expand) :
      mergeContent tokens =
        mergeContent ((munch shape.literalStrings chunks.flatten).map itemToken) := by
    rw [mergeContent_eq hne, heq, hall,
      ← mergeContent_eq fun tok htok _ => itemToken_ne_nil hlits hitems tok htok]
  refine ⟨_,hitems,hmerge (fun tok htok hterm hval => ?_) ?_,fun hchunks => ?_,?_⟩
  · simpa [isEmptyContent, hterm, hval] using (mem_filter.mp htok).2
  · induction shape.lexChunks [] chunks with
    | nil => rfl
    | cons tok tokens ih =>
      by_cases hempty : isEmptyContent tok = true
      · have hexpand : expand tok = [] := by
          rw [isEmptyContent, decide_eq_true_eq] at hempty
          simp [expand, hempty]
        rw [filter_cons_of_neg (by simpa using hempty), ih, flatMap_cons, hexpand, nil_append]
      · rw [filter_cons_of_pos (by simpa using hempty), flatMap_cons, flatMap_cons, ih]
  · exact hmerge (fun tok htok _ => lexChunks_ne_nil hlits [] hchunks tok htok) rfl
  · rw [flatMap_value, hall, ← flatMap_value, LeftmostLongest.values hitems]

end NonEmptyLiterals

theorem lexChunks_leftmostLongest_overlap :
    ∃ items, LeftmostLongest [(['a','b'],"AB"),(['a'],"A")] [['x','a'],['b','a']].flatten items ∧
      mergeContent ((lexChunks ⟨[(['a','b'],"AB"),(['a'],"A")]⟩ [] [['x','a'],['b','a']]).filter
        (!isEmptyContent ·)) = mergeContent (items.map itemToken) := by
  obtain ⟨items,hitems,hmerge,-⟩ := @lexChunks_leftmostLongest
    ⟨[(['a','b'],"AB"),(['a'],"A")]⟩ (by decide) [['x','a'],['b','a']]
  exact ⟨items,hitems,hmerge⟩

theorem lexChunks_empty_chunk :
    ¬∃ items, LeftmostLongest [(['a'],"A")] [[]].flatten items ∧
      mergeContent (lexChunks ⟨[(['a'],"A")]⟩ [] [[]]) = mergeContent (items.map itemToken) := by
  rintro ⟨items,hitems,hmerge⟩
  have hvalues := LeftmostLongest.values hitems
  have hne := @itemToken_ne_nil ⟨[(['a'],"A")]⟩ _ (by decide) _ hitems
  cases items with
  | nil => exact absurd hmerge (by decide)
  | cons item items =>
    rw [map_cons, flatMap_cons] at hvalues
    exact hne _ mem_cons_self (append_eq_nil_iff.mp hvalues).1

end LexerShape

end MetaZenith.ParserEngine
