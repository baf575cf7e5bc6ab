import Mathlib.Tactic.SplitIfs
import MajorityGraph.Proofs.IndexList.Codec

/-!
How the reader refuses words: it never fails, and its verdict is the first of its checks that
fails, the forward references found by a scan of the literal words (`ofRaw_verdict`).
-/

namespace MajorityGraph.IndexList

section EntryLiterals

/-- The literals of a list in raw order, each with its entry: the gates' literals with their
gate, then the outputs with the gate count. -/
def entryLiterals (l : IndexList) : List (Nat × Nat) :=
  (List.range l.gates.size).flatMap (fun k => (l.gates.getD k default).toList.map (k, ·)) ++
    l.outputs.toList.map (l.gates.size, ·)

/-- The forward-reference search is one scan over the literals in raw order: the first whose
index reaches `1 + numInputs + entry`. -/
theorem firstForwardReference_eq_find (l : IndexList) :
    l.firstForwardReference =
      l.entryLiterals.find? fun e => Literal.index e.2 ≥ 1 + l.numInputs + e.1 := by
  rw [firstForwardReference_eq, entryLiterals, List.find?_append, List.find?_flatMap,
    List.find?_map, ← Array.find?_toList]
  simp only [List.find?_map]
  rfl

end EntryLiterals

section Words

/-- The entry that the literal word at position `p` of a raw form belongs to: gate
`(p - 3) / 3` among the gate words, and the gate count, as for the outputs, past them. -/
def wordEntry (w : Array Nat) (p : Nat) : Nat := min ((p - 3) / 3) (w.getD 2 0)

/-- The literal word at position `p`, with its entry. -/
def wordLiteral (w : Array Nat) (p : Nat) : Nat × Nat := (wordEntry w p, w.getD p 0)

/-- The first literal word, in order, whose index reaches the limit of its entry: the constant,
the inputs and the gates before it. -/
def firstForwardWord (w : Array Nat) : Option (Nat × Nat) :=
  ((List.range' 3 (w.size - 3)).map (wordLiteral w)).find? fun e =>
    Literal.index e.2 ≥ 1 + w.getD 0 0 + e.1

theorem wordEntry_gate (w : Array Nat) {k p : Nat} (hk : k < w.getD 2 0) (after : 3 + 3 * k ≤ p)
    (before : p < 6 + 3 * k) : wordEntry w p = k := by
  simp only [wordEntry]
  omega

theorem wordEntry_output (w : Array Nat) {p : Nat} (past : 3 + 3 * w.getD 2 0 ≤ p) :
    wordEntry w p = w.getD 2 0 := by
  simp only [wordEntry]
  omega

/-- The gate words of the first `g` gates, read with their entries, are the literals of those
gates; the induction adds one gate of three words at a time. -/
theorem map_wordLiteral_gates (w : Array Nat) :
    ∀ g ≤ w.getD 2 0, (List.range' 3 (3 * g)).map (wordLiteral w) =
      (List.range g).flatMap fun k => ((ofWords w).gates.getD k default).toList.map (k, ·)
  | 0, _ => rfl
  | g + 1, le => by
    have split : List.range' 3 (3 * (g + 1)) = List.range' 3 (3 * g) ++ List.range' (3 + 3 * g) 3 := by
      rw [show 3 * (g + 1) = 3 * g + 3 by omega, ← List.range'_append, Nat.one_mul]
    have last : (ofWords w).gates.getD g default =
        ⟨w.getD (3 + 3 * g) 0, w.getD (4 + 3 * g) 0, w.getD (5 + 3 * g) 0⟩ := by
      rw [ofWords, Array.getD_eq_getD_getElem?, Array.getElem?_ofFn, dif_pos (by omega)]
      rfl
    rw [split, List.map_append, map_wordLiteral_gates w g (by omega), List.range_succ,
      List.flatMap_append, List.flatMap_singleton, last]
    simp only [List.range'_succ, List.range'_zero, List.map_cons, List.map_nil, LitGate.toList,
      wordLiteral]
    rw [show 3 + 3 * g + 1 + 1 = 5 + 3 * g by omega, show 3 + 3 * g + 1 = 4 + 3 * g by omega,
      wordEntry_gate w (k := g) (by omega) (by omega) (by omega),
      wordEntry_gate w (k := g) (p := 4 + 3 * g) (by omega) (by omega) (by omega),
      wordEntry_gate w (k := g) (p := 5 + 3 * g) (by omega) (by omega) (by omega)]

/-- The output words, read with their entries, are the outputs, each with the gate count. -/
theorem map_wordLiteral_outputs (w : Array Nat) (size : w.size = 3 + 3 * w.getD 2 0 + w.getD 1 0) :
    (List.range' (3 + 3 * w.getD 2 0) (w.getD 1 0)).map (wordLiteral w) =
      (ofWords w).outputs.toList.map (w.getD 2 0, ·) := by
  apply List.ext_getElem
  · simp only [List.length_map, List.length_range', Array.length_toList, ofWords,
      Array.size_extract]
    omega
  · intro i lt _
    simp only [List.length_map, List.length_range'] at lt
    simp only [List.getElem_map, List.getElem_range', Nat.one_mul]
    rw [wordLiteral, wordEntry_output w (Nat.le_add_right _ i)]
    simp only [ofWords, Array.getElem_toList, Array.getElem_extract]
    rw [Array.getElem_eq_getD 0]

/-- The literal words of a raw form of the declared length, read with their entries, are the
literals of the list assembled from it, in the same order. -/
theorem map_wordLiteral (w : Array Nat) (size : w.size = 3 + 3 * w.getD 2 0 + w.getD 1 0) :
    (List.range' 3 (w.size - 3)).map (wordLiteral w) = (ofWords w).entryLiterals := by
  have numGates : (ofWords w).gates.size = w.getD 2 0 := Array.size_ofFn
  rw [show w.size - 3 = 3 * w.getD 2 0 + w.getD 1 0 by omega, ← List.range'_append,
    Nat.one_mul, List.map_append, map_wordLiteral_gates w _ (Nat.le_refl _),
    map_wordLiteral_outputs w size, entryLiterals, numGates]

/-- On words of the declared length, the reader's search for a forward reference is the scan
of the literal words in order. -/
theorem firstForwardReference_ofWords (w : Array Nat)
    (size : w.size = 3 + 3 * w.getD 2 0 + w.getD 1 0) :
    (ofWords w).firstForwardReference = firstForwardWord w := by
  rw [firstForwardReference_eq_find, firstForwardWord, map_wordLiteral w size]
  rfl

end Words

/-- On 32-bit words reading never faults, and its verdict is the first check that fails, in
this order: fewer than three words; fewer words than the counts declare; more words than they
declare; more entries than the literal space holds; and then the first literal word, gates in
order and the outputs after them, whose index reaches the limit of its entry:
`1 + numInputs + k` for gate `k`, and `1 + numInputs + numGates` for an output, reported as
entry `numGates`. Words that pass every check are read as a list. -/
theorem ofRaw_verdict (w : Array Nat) (words : ∀ x ∈ w, x < 2 ^ 32) :
    ofRaw w = .ok
      (if w.size < 3 then .error (.truncated 3 w.size)
      else if w.size < 3 + 3 * w.getD 2 0 + w.getD 1 0 then
        .error (.truncated (3 + 3 * w.getD 2 0 + w.getD 1 0) w.size)
      else if w.size > 3 + 3 * w.getD 2 0 + w.getD 1 0 then
        .error (.trailingData (3 + 3 * w.getD 2 0 + w.getD 1 0) w.size)
      else if 1 + w.getD 0 0 + w.getD 2 0 > 2 ^ 31 then
        .error (.tooManyEntries (1 + w.getD 0 0 + w.getD 2 0))
      else match firstForwardWord w with
        | some (entry, lit) => .error (.forwardReference entry lit)
        | none => .ok (ofWords w)) := by
  rw [ofRaw_eq_verdict_of_words w words, verdict, show maxEntries = 2 ^ 31 from rfl]
  congr 1
  split_ifs with short shorter longer tooMany
  · rfl
  · rfl
  · rfl
  · rfl
  · rewrite [firstForwardReference_ofWords w (by omega)]
    rfl

/-- A second gate over the entry it would itself become is its forward reference, and a count
of inputs at the top of the word range overflows the literal space. -/
theorem ofRaw_verdict_forwardReference_and_tooManyEntries :
    ofRaw #[2, 1, 1, 0, 2, 4, 8] = .ok (.error (.forwardReference 1 8)) ∧
      ofRaw #[4294967295, 1, 0, 0] = .ok (.error (.tooManyEntries 4294967296)) :=
  ⟨by rw [ofRaw_verdict _ (by decide)]; rfl, by rw [ofRaw_verdict _ (by decide)]; rfl⟩

end MajorityGraph.IndexList
