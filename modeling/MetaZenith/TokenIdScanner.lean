import MetaZenith.IncrementalLexer
import MetaZenith.TextSearch

/-! The scanner of the parser engine: token ids say which terminals come, and the text, which may
arrive later, says where. -/

namespace MetaZenith.ParserEngine

open List TextSearch

def dropTerminal : String := "__DROP__"

structure PreLexedTerminal where
  terminal : String
  tokenId : ℕ
  text : Text
  deriving DecidableEq, Repr

inductive LexerInput where
  | textChunk (text : Text)
  | preLexed (terminal : PreLexedTerminal)
  deriving DecidableEq, Repr

structure TokenIDScanner where
  tokenIdToTerminal : List (ℕ × String)
  decode : ℕ → Text

structure Deferred where
  terminals : List PreLexedTerminal := []
  postText : Text := []
  deriving DecidableEq, Repr

def textItem (text : Text) : List LexerInput := if text = [] then [] else [.textChunk text]

def LexerInput.terminal? : LexerInput → Option PreLexedTerminal
  | .textChunk _ => none
  | .preLexed t => some t

def LexerInput.text : LexerInput → Text
  | .textChunk text => text
  | .preLexed t => t.text

def resolveLoop : List PreLexedTerminal → Text → List LexerInput × Text × Deferred
  | [], remaining => ([],remaining,{})
  | t :: ts, remaining =>
    match findFrom remaining t.text 0 with
    | some pos =>
      let r := resolveLoop ts (remaining.drop (pos+t.text.length))
      (textItem (remaining.take pos) ++ .preLexed t :: r.1,r.2)
    | none =>
      let r := resolveLoop ts []
      (r.1,r.2.1,⟨t :: r.2.2.terminals,remaining ++ r.2.2.postText⟩)

variable (deferred : Deferred) (items : List LexerInput) (scanner : TokenIDScanner)

def resolveDeferred (deltaText : Text) : List LexerInput × Text × Deferred :=
  resolveLoop deferred.terminals (deferred.postText ++ deltaText)

/-- The positions of the anchors in `_rebuild_from_anchors`, from the right, with the end of the
search for the next one. -/
def anchorPositions (deltaText : Text) : List PreLexedTerminal → List (PreLexedTerminal × Option ℕ) × ℕ
  | [] => ([],deltaText.length)
  | anchor :: anchors =>
    let r := anchorPositions deltaText anchors
    match rfindTo deltaText anchor.text r.2 with
    | some pos => ((anchor,some pos) :: r.1,pos)
    | none => ((anchor,none) :: r.1,r.2)

def placeAnchors (deltaText : Text) :
    List (PreLexedTerminal × Option ℕ) → ℕ → Deferred → List LexerInput × Deferred
  | [], consumed, deferred => (textItem (deltaText.drop consumed),deferred)
  | (anchor,position) :: rest, consumed, deferred =>
    match position.filter (consumed ≤ ·) with
    | some pos =>
      let r := placeAnchors deltaText rest (pos+anchor.text.length) deferred
      (textItem ((deltaText.take pos).drop consumed) ++ .preLexed anchor :: r.1,r.2)
    | none =>
      let hasLaterValid := rest.any fun a => a.2.isSome
      if !hasLaterValid && decide (consumed < deltaText.length) &&
          decide (anchor.terminal ≠ dropTerminal) then
        placeAnchors deltaText rest deltaText.length
          ⟨deferred.terminals ++ [anchor],deferred.postText ++ deltaText.drop consumed⟩
      else
        placeAnchors deltaText rest consumed ⟨deferred.terminals ++ [anchor],deferred.postText⟩

def rebuildFromAnchors (deltaText : Text) (results : List LexerInput) :
    List LexerInput × Deferred :=
  let anchors := results.filterMap LexerInput.terminal?
  if anchors.isEmpty then ([.textChunk deltaText],deferred)
  else placeAnchors deltaText (anchorPositions deltaText anchors).1 0 deferred

def recoverHoldbackText (deltaText : Text) (results : List LexerInput) :
    List LexerInput × Deferred :=
  if results.isEmpty then ([.textChunk deltaText],deferred)
  else
    let reconstructed := results.flatMap LexerInput.text
    if reconstructed.isEmpty then (.textChunk deltaText :: results,deferred)
    else
      match findFrom deltaText reconstructed 0 with
      | some pos => (textItem (deltaText.take pos) ++ results,deferred)
      | none => rebuildFromAnchors deferred deltaText results

namespace TokenIDScanner

def terminalOf (tid : ℕ) : Option String :=
  scanner.tokenIdToTerminal.lookup tid

def groupItems (scanner : TokenIDScanner) : List ℕ → Text → List LexerInput
  | [], textAccum => textItem textAccum
  | tid :: ids, textAccum =>
    match scanner.terminalOf tid with
    | some terminal =>
      textItem textAccum ++ .preLexed ⟨terminal,tid,scanner.decode tid⟩ :: scanner.groupItems ids []
    | none => scanner.groupItems ids (textAccum ++ scanner.decode tid)

def hasSpecial (ids : List ℕ) : Bool :=
  ids.any fun tid => (scanner.terminalOf tid).isSome

def scanGroup (deferred : Deferred) (effectiveText : Text) (deltaTokenIds : List ℕ) :
    List LexerInput × Deferred :=
  if scanner.tokenIdToTerminal.isEmpty || !scanner.hasSpecial deltaTokenIds then
    (textItem effectiveText,deferred)
  else
    let results := scanner.groupItems deltaTokenIds []
    if effectiveText.isEmpty then
      ([],{ deferred with
        terminals := deferred.terminals ++ results.filterMap LexerInput.terminal? })
    else recoverHoldbackText deferred effectiveText results

def scan (deferred : Deferred) (deltaText : Text) (deltaTokenIds : List ℕ) :
    List LexerInput × Deferred :=
  let r := if deferred.terminals.isEmpty then ([],deltaText,deferred)
    else resolveDeferred deferred deltaText
  let r' := scanner.scanGroup r.2.2 r.2.1 deltaTokenIds
  (r.1 ++ r'.1,r'.2)

end TokenIDScanner

def flushPending : List LexerInput :=
  textItem deferred.postText ++ deferred.terminals.map .preLexed

inductive Atom where
  | letter (c : Char)
  | special (t : PreLexedTerminal)
  deriving DecidableEq, Repr

namespace Atom

def text : Atom → Text
  | letter c => [c]
  | special t => t.text

def special? : Atom → Option PreLexedTerminal
  | letter _ => none
  | special t => some t

end Atom

def textOf (atoms : List Atom) : Text := atoms.flatMap Atom.text

def specialsOf (atoms : List Atom) : List PreLexedTerminal := atoms.filterMap Atom.special?

def LexerInput.atoms : LexerInput → List Atom
  | .textChunk text => text.map .letter
  | .preLexed t => [.special t]

def atomsOf : List Atom := items.flatMap LexerInput.atoms

def TokenIDScanner.tokenAtoms (tid : ℕ) : List Atom :=
  match scanner.terminalOf tid with
  | some terminal => [.special ⟨terminal,tid,scanner.decode tid⟩]
  | none => (scanner.decode tid).map .letter

def TokenIDScanner.streamAtoms (ids : List ℕ) : List Atom :=
  ids.flatMap scanner.tokenAtoms

@[simp]
theorem textOf_nil : textOf [] = [] := rfl

@[simp]
theorem textOf_append (l l' : List Atom) : textOf (l ++ l') = textOf l ++ textOf l' :=
  flatMap_append

@[simp]
theorem textOf_cons (a : Atom) (l : List Atom) : textOf (a :: l) = a.text ++ textOf l :=
  flatMap_cons

@[simp]
theorem textOf_letters (text : Text) : textOf (text.map .letter) = text := by
  induction text with
  | nil => rfl
  | cons c text ih => simp [Atom.text, ih]

@[simp]
theorem specialsOf_append (l l' : List Atom) :
    specialsOf (l ++ l') = specialsOf l ++ specialsOf l' := filterMap_append

@[simp]
theorem specialsOf_letters (text : Text) : specialsOf (text.map .letter) = [] := by
  simp [specialsOf, filterMap_map, Atom.special?, Function.comp_def]

@[simp]
theorem specialsOf_special (t : PreLexedTerminal) (l : List Atom) :
    specialsOf (.special t :: l) = t :: specialsOf l := rfl

theorem eq_letters_of_specialsOf_eq_nil {l : List Atom} (h : specialsOf l = []) :
    l = (textOf l).map .letter := by
  induction l with
  | nil => rfl
  | cons a l ih =>
    cases a with
    | letter c => simpa [Atom.text] using ih h
    | special t => cases h

theorem exists_of_specialsOf_eq_cons {l : List Atom} {t : PreLexedTerminal}
    {ts : List PreLexedTerminal} (h : specialsOf l = t :: ts) :
    ∃ (front : Text) (rest : List Atom), l = front.map .letter ++ .special t :: rest ∧
      specialsOf rest = ts := by
  induction l with
  | nil => cases h
  | cons a l ih =>
    cases a with
    | letter c =>
      obtain ⟨front,rest,hl,hrest⟩ := ih h
      exact ⟨c :: front,rest,by rw [hl]; rfl,hrest⟩
    | special t' =>
      rw [specialsOf_special, List.cons.injEq] at h
      exact ⟨[],l,by rw [h.1]; rfl,h.2⟩

@[simp]
theorem atomsOf_append (l l' : List LexerInput) : atomsOf (l ++ l') = atomsOf l ++ atomsOf l' :=
  flatMap_append

@[simp]
theorem atomsOf_preLexed (t : PreLexedTerminal) (l : List LexerInput) :
    atomsOf (.preLexed t :: l) = .special t :: atomsOf l := rfl

@[simp]
theorem atomsOf_textItem (text : Text) : atomsOf (textItem text) = text.map .letter := by
  unfold textItem
  split
  · case isTrue h => rw [h]; rfl
  · exact flatMap_singleton ..

def NoEmptyChunk : Prop := .textChunk [] ∉ items

theorem noEmptyChunk_textItem (text : Text) : NoEmptyChunk (textItem text) := by
  unfold textItem NoEmptyChunk
  split
  · exact not_mem_nil
  · case isFalse h => simpa using fun heq : [] = text => h heq.symm

theorem NoEmptyChunk.append {l l' : List LexerInput} (h : NoEmptyChunk l) (h' : NoEmptyChunk l') :
    NoEmptyChunk (l ++ l') := fun hmem => (mem_append.mp hmem).elim h h'

theorem NoEmptyChunk.preLexed {l : List LexerInput} (h : NoEmptyChunk l) (t : PreLexedTerminal) :
    NoEmptyChunk (.preLexed t :: l) := fun hmem => (mem_cons.mp hmem).elim (nomatch ·) h

theorem noEmptyChunk_nil : NoEmptyChunk [] := not_mem_nil

theorem TokenIDScanner.atomsOf_groupItems (ids : List ℕ) (accum : Text) :
    atomsOf (scanner.groupItems ids accum) = accum.map .letter ++ scanner.streamAtoms ids := by
  induction ids generalizing accum with
  | nil => simp [groupItems, streamAtoms]
  | cons tid ids ih =>
    simp only [groupItems]
    have hstream : scanner.streamAtoms (tid :: ids) =
        scanner.tokenAtoms tid ++ scanner.streamAtoms ids := flatMap_cons
    cases hterm : scanner.terminalOf tid with
    | some terminal => simp [hstream, tokenAtoms, hterm, ih]
    | none => simp [hstream, tokenAtoms, hterm, ih]

theorem TokenIDScanner.noEmptyChunk_groupItems (ids : List ℕ) (accum : Text) :
    NoEmptyChunk (scanner.groupItems ids accum) := by
  induction ids generalizing accum with
  | nil => exact noEmptyChunk_textItem accum
  | cons tid ids ih =>
    simp only [groupItems]
    cases scanner.terminalOf tid with
    | some terminal => exact (noEmptyChunk_textItem accum).append ((ih []).preLexed _)
    | none => exact ih _

theorem flatMap_text_eq_textOf : items.flatMap LexerInput.text = textOf (atomsOf items) := by
  induction items with
  | nil => rfl
  | cons item items ih =>
    cases item with
    | textChunk text =>
      rw [flatMap_cons, ih]
      simp [atomsOf, LexerInput.text, LexerInput.atoms]
    | preLexed t =>
      rw [flatMap_cons, ih]
      rfl

theorem filterMap_terminal_eq_specialsOf :
    items.filterMap LexerInput.terminal? = specialsOf (atomsOf items) := by
  induction items with
  | nil => rfl
  | cons item items ih =>
    cases item with
    | textChunk text =>
      rw [filterMap_cons_none rfl, ih]
      simp [atomsOf, LexerInput.atoms]
    | preLexed t => simpa [LexerInput.terminal?] using ih

theorem TokenIDScanner.specialsOf_streamAtoms_eq_nil {scanner : TokenIDScanner} {ids : List ℕ} :
    specialsOf (scanner.streamAtoms ids) = [] ↔ scanner.hasSpecial ids = false := by
  induction ids with
  | nil => exact ⟨fun _ => rfl,fun _ => rfl⟩
  | cons tid ids ih =>
    have hstream : scanner.streamAtoms (tid :: ids) =
        scanner.tokenAtoms tid ++ scanner.streamAtoms ids := flatMap_cons
    have hany : scanner.hasSpecial (tid :: ids) =
        ((scanner.terminalOf tid).isSome || scanner.hasSpecial ids) := any_cons
    rw [hstream, specialsOf_append, append_eq_nil_iff, ih, hany, Bool.or_eq_false_iff]
    refine and_congr_left fun _ => ?_
    unfold tokenAtoms
    cases scanner.terminalOf tid with
    | some terminal => simp
    | none => simp

end MetaZenith.ParserEngine
