import Mathlib.Algebra.Group.Nat.Defs
import MajorityGraph.IndexList.Basic

/-!
The raw word form of an index list: reading accepts exactly the raw forms of well-formed lists
that fit the literal space, and the builders make only such lists (`raw_form_codec`).
-/

namespace MajorityGraph.IndexList

section Layout

/-! Where each part of a list sits in its raw form. -/

theorem length_flatMap_toList (gs : List LitGate) :
    (gs.flatMap LitGate.toList).length = 3 * gs.length := by
  induction gs with
  | nil => rfl
  | cons g gs ih =>
    simp only [List.flatMap_cons, List.length_append, ih, LitGate.toList, List.length_cons,
      List.length_nil]
    omega

/-- The gate words come in threes: word `j` of gate `k` sits at `3 * k + j`. -/
theorem getElem?_flatMap_toList (gs : List LitGate) (k j : Nat) (hj : j < 3) :
    (gs.flatMap LitGate.toList)[3 * k + j]? = gs[k]?.bind fun g => g.toList[j]? := by
  induction gs generalizing k with
  | nil => simp
  | cons g gs ih =>
    cases k with
    | zero =>
      have inFirst : j < g.toList.length := by simp [LitGate.toList]; omega
      simp [List.flatMap_cons, List.getElem?_append_left inFirst]
    | succ k =>
      have shift : 3 * (k + 1) + j = g.toList.length + (3 * k + j) := by
        simp [LitGate.toList]; omega
      rw [List.flatMap_cons, shift, List.getElem?_append_right (by omega), Nat.add_sub_cancel_left]
      simpa using ih k

theorem toList_raw (l : IndexList) :
    l.raw.toList = [l.numInputs, l.outputs.size % UInt32.size, l.gates.size % UInt32.size] ++
      l.gates.toList.flatMap LitGate.toList ++ l.outputs.toList := by
  simp [raw]; rfl

theorem length_header_gates (l : IndexList) :
    ([l.numInputs, l.outputs.size % UInt32.size, l.gates.size % UInt32.size] ++
      l.gates.toList.flatMap LitGate.toList).length = 3 + 3 * l.gates.size := by
  simp only [List.length_append, length_flatMap_toList, Array.length_toList, List.length_cons,
    List.length_nil]

theorem size_raw (l : IndexList) : l.raw.size = 3 + 3 * l.gates.size + l.outputs.size := by
  rw [← Array.length_toList, toList_raw, List.length_append, length_header_gates,
    Array.length_toList]

theorem getElem?_raw_gate (l : IndexList) (k j : Nat) (hk : k < l.gates.size) (hj : j < 3) :
    l.raw[3 + 3 * k + j]? = l.gates[k].toList[j]? := by
  have inGates : 3 * k + j < (l.gates.toList.flatMap LitGate.toList).length := by
    rw [length_flatMap_toList, Array.length_toList]; omega
  rw [← Array.getElem?_toList, toList_raw, List.append_assoc, Nat.add_assoc,
    List.getElem?_append_right (by simp), List.getElem?_append_left (by simpa using inGates)]
  simp [getElem?_flatMap_toList _ _ _ hj, hk]

theorem getElem?_raw_output (l : IndexList) (m : Nat) :
    l.raw[3 + 3 * l.gates.size + m]? = l.outputs[m]? := by
  rw [← Array.getElem?_toList, toList_raw,
    List.getElem?_append_right (by rw [length_header_gates]; omega), length_header_gates]
  simp

theorem getElem?_raw_counts (l : IndexList) :
    l.raw[0]? = some l.numInputs ∧ l.raw[1]? = some (l.outputs.size % UInt32.size) ∧
      l.raw[2]? = some (l.gates.size % UInt32.size) := by
  simp [← Array.getElem?_toList, toList_raw]

theorem getD_raw_numInputs (l : IndexList) : l.raw.getD 0 0 = l.numInputs := by
  simp [Array.getD_eq_getD_getElem?, (getElem?_raw_counts l).1]

/-- The counts of outputs and gates, when they fit 32-bit words, are read back as they are. -/
theorem getD_raw_numOutputs (l : IndexList) (fits : l.outputs.size < 2 ^ 32) :
    l.raw.getD 1 0 = l.outputs.size := by
  rw [Array.getD_eq_getD_getElem?, (getElem?_raw_counts l).2.1, Option.getD_some]
  exact Nat.mod_eq_of_lt fits

theorem getD_raw_numGates (l : IndexList) (fits : l.gates.size < 2 ^ 32) :
    l.raw.getD 2 0 = l.gates.size := by
  rw [Array.getD_eq_getD_getElem?, (getElem?_raw_counts l).2.2, Option.getD_some]
  exact Nat.mod_eq_of_lt fits

/-- The three words the reader takes for gate `k`, at the offsets it reads them from. -/
theorem getD_raw_gate (l : IndexList) (k : Nat) (hk : k < l.gates.size) :
    l.raw.getD (3 + 3 * k) 0 = l.gates[k].a ∧ l.raw.getD (4 + 3 * k) 0 = l.gates[k].b ∧
      l.raw.getD (5 + 3 * k) 0 = l.gates[k].c := by
  have word (j : Nat) (hj : j < 3) := getElem?_raw_gate l k j hk hj
  simp only [Array.getD_eq_getD_getElem?]
  refine ⟨?_, ?_, ?_⟩
  · simpa [LitGate.toList] using congrArg (·.getD 0) (word 0 (by omega))
  · simp [show 4 + 3 * k = 3 + 3 * k + 1 by omega, word 1 (by omega), LitGate.toList]
  · simp [show 5 + 3 * k = 3 + 3 * k + 2 by omega, word 2 (by omega), LitGate.toList]

theorem getElem?_eq_some_getD (w : Array Nat) (i : Nat) (h : i < w.size) :
    w[i]? = some (w.getD i 0) := by
  simp [Array.getD_eq_getD_getElem?, Array.getElem?_eq_getElem h]

end Layout

section Reading

/-- The list that the reader assembles from its words once the counts check out: the first
count as the inputs, the gate words in threes, and the rest as outputs. -/
def ofWords (w : Array Nat) : IndexList where
  numInputs := w.getD 0 0
  gates := Array.ofFn (n := w.getD 2 0) fun k =>
    ⟨w.getD (3 + 3 * k.val) 0, w.getD (4 + 3 * k.val) 0, w.getD (5 + 3 * k.val) 0⟩
  outputs := w.extract (3 + 3 * w.getD 2 0) w.size

/-- The verdict of the reader on words whose counts it sums without overflow: the length against
the declared counts, then the literal space, then the literals of the assembled list. -/
def verdict (w : Array Nat) : Except IndexListError IndexList :=
  if w.size < 3 then .error (.truncated 3 w.size)
  else if w.size < 3 + 3 * w.getD 2 0 + w.getD 1 0 then
    .error (.truncated (3 + 3 * w.getD 2 0 + w.getD 1 0) w.size)
  else if w.size > 3 + 3 * w.getD 2 0 + w.getD 1 0 then
    .error (.trailingData (3 + 3 * w.getD 2 0 + w.getD 1 0) w.size)
  else if 1 + w.getD 0 0 + w.getD 2 0 > maxEntries then
    .error (.tooManyEntries (1 + w.getD 0 0 + w.getD 2 0))
  else match (ofWords w).firstForwardReference with
    | some (entry, lit) => .error (.forwardReference entry lit)
    | none => .ok (ofWords w)

theorem wordAt_eq (w : Array Nat) {i : Nat} (lt : i < w.size) : wordAt w i = .ok (w.getD i 0) := by
  simp [wordAt, Array.getElem?_eq_getElem lt, Array.getD_eq_getD_getElem?]

theorem sliceFrom_eq (w : Array Nat) {start : Nat} (le : start ≤ w.size) :
    sliceFrom w start = .ok (w.extract start w.size) := by
  simp [sliceFrom, le]

theorem sliceTo_eq (w : Array Nat) {stop : Nat} (le : stop ≤ w.size) :
    sliceTo w stop = .ok (w.extract 0 stop) := by
  simp [sliceTo, le]

theorem getD_extract (w : Array Nat) {start stop j : Nat} (lt : start + j < stop)
    (le : stop ≤ w.size) : (w.extract start stop).getD j 0 = w.getD (start + j) 0 := by
  simp only [Array.getD_eq_getD_getElem?, Array.getElem?_extract]
  rw [if_pos (by omega)]

/-- The gate words, cut from the words after the counts, chunk into the gates assembled from the
words. -/
theorem chunkGates_extract (w : Array Nat) (le : 3 + 3 * w.getD 2 0 ≤ w.size) :
    chunkGates ((w.extract 3 w.size).extract 0 (3 * w.getD 2 0)) = (ofWords w).gates := by
  have size : ((w.extract 3 w.size).extract 0 (3 * w.getD 2 0)).size = 3 * w.getD 2 0 := by
    simp only [Array.size_extract]
    omega
  apply Array.ext
  · simp only [chunkGates, ofWords, Array.size_ofFn, size]
    omega
  · intro k lt _
    simp only [chunkGates, ofWords, Array.getElem_ofFn, Array.size_ofFn] at lt ⊢
    -- word `j` of chunk `k` is word `3 + 3 * k + j` of the whole
    have word (j : Nat) (hj : j < 3) :
        ((w.extract 3 w.size).extract 0 (3 * w.getD 2 0)).getD (3 * k + j) 0 =
          w.getD (3 + 3 * k + j) 0 := by
      rw [getD_extract _ (by omega) (by simp only [Array.size_extract]; omega),
        getD_extract _ (by omega) (Nat.le_refl _)]
      congr 1
      omega
    have a := word 0 (by omega)
    have b := word 1 (by omega)
    have c := word 2 (by omega)
    simp only [Nat.add_zero] at a
    rw [a, b, c, show 3 + 3 * k + 1 = 4 + 3 * k by omega, show 3 + 3 * k + 2 = 5 + 3 * k by omega]

/-- The output words, cut from the words after the counts, are the words after the gates. -/
theorem extract_extract_outputs (w : Array Nat) (le : 3 ≤ w.size) (g : Nat) :
    (w.extract 3 w.size).extract g (w.extract 3 w.size).size = w.extract (3 + g) w.size := by
  rw [Array.extract_extract]
  simp only [Array.size_extract]
  congr 1
  omega

/-- While the counts sum without overflow, the reader does not fail, and its slices are the
words the verdict assembles. -/
theorem ofRaw_eq_verdict (w : Array Nat) (small : 3 + 3 * w.getD 2 0 + w.getD 1 0 ≤ maxWord)
    (sum : 1 + w.getD 0 0 + w.getD 2 0 ≤ maxWord) : ofRaw w = .ok (verdict w) := by
  unfold ofRaw verdict
  by_cases short : w.size < 3
  · simp only [short, if_true]
    rfl
  · have expected : min (min (3 + min (w.getD 2 0 * 3) maxWord) maxWord + w.getD 1 0) maxWord =
        3 + 3 * w.getD 2 0 + w.getD 1 0 := by omega
    simp only [short, if_false, wordAt_eq w (show 0 < w.size by omega),
      wordAt_eq w (show 1 < w.size by omega), wordAt_eq w (show 2 < w.size by omega), bind,
      Except.bind, expected]
    split
    · rfl
    split
    · rfl
    rw [if_neg (by omega)]
    split
    · rfl
    rw [sliceFrom_eq w (by omega)]
    dsimp only
    rw [if_neg (by omega), sliceTo_eq _ (by simp only [Array.size_extract]; omega),
      sliceFrom_eq _ (by simp only [Array.size_extract]; omega)]
    dsimp only
    have assembled : (⟨w.getD 0 0, (ofWords w).gates, w.extract (3 + 3 * w.getD 2 0) w.size⟩ :
        IndexList) = ofWords w := rfl
    rw [chunkGates_extract w (by omega), extract_extract_outputs w (by omega), assembled]
    cases (ofWords w).firstForwardReference <;> rfl

theorem getD_lt_of_words {w : Array Nat} (words : ∀ x ∈ w, x < 2 ^ 32) (i : Nat) :
    w.getD i 0 < 2 ^ 32 := by
  rw [Array.getD_eq_getD_getElem?]
  cases found : w[i]? with
  | none => simp
  | some x => exact words x (Array.mem_of_getElem? found)

/-- Counts of 32-bit words sum without overflow. -/
theorem ofRaw_eq_verdict_of_words (w : Array Nat) (words : ∀ x ∈ w, x < 2 ^ 32) :
    ofRaw w = .ok (verdict w) := by
  have w0 := getD_lt_of_words words 0
  have w1 := getD_lt_of_words words 1
  have w2 := getD_lt_of_words words 2
  exact ofRaw_eq_verdict w (by simp only [maxWord]; omega) (by simp only [maxWord]; omega)

theorem ofFn_raw_gates (l : IndexList) (n : Nat) (h : n = l.gates.size) :
    Array.ofFn (n := n) (fun k => ⟨l.raw.getD (3 + 3 * k.val) 0, l.raw.getD (4 + 3 * k.val) 0,
      l.raw.getD (5 + 3 * k.val) 0⟩) = l.gates := by
  subst h
  apply Array.ext
  · simp
  · intro k _ hk
    obtain ⟨a, b, c⟩ := getD_raw_gate l k hk
    simp only [Array.getElem_ofFn]
    rw [a, b, c]

theorem extract_raw_outputs (l : IndexList) (n : Nat) (h : n = l.gates.size) :
    l.raw.extract (3 + 3 * n) l.raw.size = l.outputs := by
  subst h
  apply Array.ext_getElem?
  intro m
  rw [Array.getElem?_extract, Nat.min_self, size_raw, getElem?_raw_output]
  split
  · rfl
  · exact (Array.getElem?_eq_none (by omega)).symm

/-- Assembling the raw form of a list whose gate count fits a word gives the list back. -/
theorem ofWords_raw (l : IndexList) (gates : l.gates.size < 2 ^ 32) : ofWords l.raw = l := by
  have counts := getD_raw_numGates l gates
  simp only [ofWords, getD_raw_numInputs, ofFn_raw_gates l _ counts,
    extract_raw_outputs l _ counts]

/-- Words of the length their counts declare, with counts that fit 32-bit words, are the raw
form of the list assembled from them. -/
theorem raw_ofWords (w : Array Nat) (size : w.size = 3 + 3 * w.getD 2 0 + w.getD 1 0)
    (counts : w.getD 1 0 < 2 ^ 32 ∧ w.getD 2 0 < 2 ^ 32) : (ofWords w).raw = w := by
  have numGates : (ofWords w).gates.size = w.getD 2 0 := Array.size_ofFn
  apply Array.ext_getElem?
  intro i
  -- the words split into the counts, the gate words and the outputs
  rcases Nat.lt_or_ge i 3 with header | body
  · obtain ⟨inputs, outputs, gates⟩ := getElem?_raw_counts (ofWords w)
    have : i = 0 ∨ i = 1 ∨ i = 2 := by omega
    rcases this with rfl | rfl | rfl
    · rw [inputs, getElem?_eq_some_getD w 0 (by omega)]
      rfl
    · rw [outputs, getElem?_eq_some_getD w 1 (by omega)]
      simp only [ofWords, Array.size_extract, Nat.min_self, Option.some.injEq, UInt32.size]
      omega
    · rw [gates, getElem?_eq_some_getD w 2 (by omega), numGates]
      simp only [Option.some.injEq, UInt32.size]
      omega
  rcases Nat.lt_or_ge i (3 + 3 * w.getD 2 0) with gate | output
  · obtain ⟨k, j, hj, rfl⟩ : ∃ k j, j < 3 ∧ i = 3 + 3 * k + j :=
      ⟨(i - 3) / 3, (i - 3) % 3, by omega, by omega⟩
    rw [getElem?_raw_gate (ofWords w) k j (by omega) hj, getElem?_eq_some_getD w (3 + 3 * k + j) (by omega)]
    have : j = 0 ∨ j = 1 ∨ j = 2 := by omega
    rcases this with rfl | rfl | rfl
    · simp [ofWords, LitGate.toList]
    · rw [show 3 + 3 * k + 1 = 4 + 3 * k by omega]
      simp [ofWords, LitGate.toList]
    · rw [show 3 + 3 * k + 2 = 5 + 3 * k by omega]
      simp [ofWords, LitGate.toList]
  · obtain ⟨m, rfl⟩ : ∃ m, i = 3 + 3 * w.getD 2 0 + m := ⟨i - (3 + 3 * w.getD 2 0), by omega⟩
    have outputs := getElem?_raw_output (ofWords w) m
    rw [numGates] at outputs
    rw [outputs, ofWords, Array.getElem?_extract, Nat.min_self]
    split
    · rfl
    · exact (Array.getElem?_eq_none (by omega)).symm

/-- The raw form of a list that fits the literal space and has fewer than `2 ^ 32` outputs is
read back as the list, unless a literal names a later entry. -/
theorem ofRaw_raw_of_fits (l : IndexList) (fits : l.numEntries ≤ maxEntries)
    (outputs : l.outputs.size < 2 ^ 32) :
    ofRaw l.raw = .ok (match l.firstForwardReference with
      | some (entry, lit) => .error (.forwardReference entry lit)
      | none => .ok l) := by
  have fits' : 1 + l.numInputs + l.gates.size ≤ maxEntries := fits
  have gates : l.gates.size < 2 ^ 32 := by simp only [maxEntries] at fits'; omega
  have small : 3 + 3 * l.raw.getD 2 0 + l.raw.getD 1 0 ≤ maxWord := by
    rw [getD_raw_numGates l gates, getD_raw_numOutputs l outputs]
    simp only [maxWord]
    omega
  have sum : 1 + l.raw.getD 0 0 + l.raw.getD 2 0 ≤ maxWord := by
    rw [getD_raw_numInputs, getD_raw_numGates l gates]
    simp only [maxWord, maxEntries] at fits' ⊢
    omega
  rw [ofRaw_eq_verdict _ small sum, verdict, ofWords_raw l gates]
  simp (disch := omega) only [getD_raw_numInputs, getD_raw_numOutputs l outputs,
    getD_raw_numGates l gates, size_raw, if_neg]

theorem ofRaw_raw {l : IndexList} (wf : l.isWellFormed) (fits : l.numEntries ≤ maxEntries)
    (outputs : l.outputs.size < 2 ^ 32) : ofRaw l.raw = .ok (.ok l) := by
  rw [ofRaw_raw_of_fits l fits outputs]
  simp only [isWellFormed, Option.isNone_iff_eq_none] at wf
  rw [wf]

/-- On 32-bit words, reading accepts exactly the raw forms of well-formed lists that fit the
literal space and have fewer than `2 ^ 32` outputs. -/
theorem ofRaw_eq_ok_iff (w : Array Nat) (l : IndexList) (words : ∀ x ∈ w, x < 2 ^ 32) :
    ofRaw w = .ok (.ok l) ↔
      w = l.raw ∧ l.isWellFormed ∧ l.numEntries ≤ maxEntries ∧ l.outputs.size < 2 ^ 32 := by
  constructor
  · intro read
    rw [ofRaw_eq_verdict_of_words w words, Except.ok.injEq] at read
    have w1 := getD_lt_of_words words 1
    have w2 := getD_lt_of_words words 2
    unfold verdict at read
    split at read
    · cases read
    split at read
    · cases read
    split at read
    · cases read
    next short long =>
    split at read
    · cases read
    next tooMany =>
    split at read
    · cases read
    next missing =>
    cases read
    have numGates : (ofWords w).gates.size = w.getD 2 0 := Array.size_ofFn
    refine ⟨(raw_ofWords w (by omega) ⟨w1, w2⟩).symm, by simp [isWellFormed, missing], ?_, ?_⟩
    · show 1 + w.getD 0 0 + (ofWords w).gates.size ≤ maxEntries
      omega
    · simp only [ofWords, Array.size_extract]
      omega
  · rintro ⟨rfl, wf, fits, outputs⟩
    exact ofRaw_raw wf fits outputs

end Reading

section ForwardReferences

/-- The search for a forward reference: the gates in order, then the outputs. -/
theorem firstForwardReference_eq (l : IndexList) : l.firstForwardReference =
    ((List.range l.gates.size).findSome? fun k =>
      ((l.gates.getD k default).toList.find? fun lit =>
        Literal.index lit ≥ 1 + l.numInputs + k).map (k, ·)).or
    ((l.outputs.find? fun lit => Literal.index lit ≥ l.numEntries).map (l.gates.size, ·)) := by
  unfold firstForwardReference
  dsimp only
  split
  next r found => rw [found]; rfl
  next missing => rw [missing]; rfl

/-- A forward reference is reported at a gate or, for an output, at the gate count. -/
theorem firstForwardReference_entry_le {l : IndexList} {e lit : Nat}
    (found : l.firstForwardReference = some (e, lit)) : e ≤ l.gates.size := by
  rw [firstForwardReference_eq] at found
  cases inGates : (List.range l.gates.size).findSome? (fun k =>
      ((l.gates.getD k default).toList.find? fun lit =>
        Literal.index lit ≥ 1 + l.numInputs + k).map (k, ·)) with
  | some r =>
      rw [inGates, Option.some_or] at found
      cases found
      obtain ⟨k, member, hk⟩ := List.exists_of_findSome?_eq_some inGates
      obtain ⟨lit', _, same⟩ := Option.map_eq_some_iff.mp hk
      cases same
      exact Nat.le_of_lt (List.mem_range.mp member)
  | none =>
      rw [inGates, Option.none_or] at found
      obtain ⟨lit', _, same⟩ := Option.map_eq_some_iff.mp found
      cases same
      exact Nat.le_refl _

/-- The reader reports a forward reference only inside the literal space, at an entry no later
than the declared gate count. -/
theorem ofRaw_forwardReference {w : Array Nat} {e lit : Nat}
    (read : ofRaw w = .ok (.error (.forwardReference e lit))) :
    1 + w.getD 0 0 + w.getD 2 0 ≤ maxEntries ∧ e ≤ w.getD 2 0 := by
  unfold ofRaw at read
  by_cases short : w.size < 3
  · simp [short, pure, Except.pure] at read
  rw [if_neg short, wordAt_eq w (show 0 < w.size by omega),
    wordAt_eq w (show 1 < w.size by omega), wordAt_eq w (show 2 < w.size by omega)] at read
  dsimp only [bind, Except.bind] at read
  -- every verdict before the scan is another error, or a fault
  split at read
  · simp [pure, Except.pure] at read
  split at read
  · simp [pure, Except.pure] at read
  split at read
  · simp [throw, throwThe, MonadExceptOf.throw] at read
  split at read
  · simp [pure, Except.pure] at read
  rename_i fits
  rw [sliceFrom_eq w (by omega)] at read
  dsimp only at read
  split at read
  · simp [throw, throwThe, MonadExceptOf.throw] at read
  cases cut : sliceTo (w.extract 3 w.size) (3 * w.getD 2 0) with
  | error err => rw [cut] at read; cases read
  | ok gateWords =>
      have few : gateWords.size ≤ 3 * w.getD 2 0 := by
        unfold sliceTo at cut
        split at cut
        · cases cut
          simp only [Array.size_extract]
          omega
        · cases cut
      rw [cut] at read
      dsimp only at read
      cases rest : sliceFrom (w.extract 3 w.size) (3 * w.getD 2 0) with
      | error err => rw [rest] at read; cases read
      | ok outputs =>
          rw [rest] at read
          dsimp only at read
          split at read
          · rename_i entry' lit' found
            simp only [pure, Except.pure, Except.ok.injEq, Except.error.injEq,
              IndexListError.forwardReference.injEq] at read
            obtain ⟨rfl, rfl⟩ := read
            have le := firstForwardReference_entry_le found
            simp only [chunkGates, Array.size_ofFn] at le
            exact ⟨by omega, by omega⟩
          · simp [pure, Except.pure] at read

/-- A list is well formed when each gate reads only the entries before it and each output
reads only defined entries. -/
theorem isWellFormed_iff (l : IndexList) : l.isWellFormed ↔
    (∀ k (hk : k < l.gates.size), ∀ lit ∈ l.gates[k].toList,
      Literal.index lit < 1 + l.numInputs + k) ∧
    ∀ lit ∈ l.outputs, Literal.index lit < l.numEntries := by
  simp +contextual [isWellFormed, firstForwardReference_eq, List.findSome?_eq_none_iff,
    List.find?_eq_none]

/-- Appending a gate to a well-formed list: the first forward reference, if any, is a literal
of the new gate, which may read every entry before it. -/
theorem firstForwardReference_push (l : IndexList) (g : LitGate) (wf : l.isWellFormed) :
    ({ l with gates := l.gates.push g } : IndexList).firstForwardReference =
      (g.toList.find? fun lit => Literal.index lit ≥ l.numEntries).map (l.gates.size, ·) := by
  obtain ⟨gatesOk, outputsOk⟩ := (isWellFormed_iff l).1 wf
  have kept (k : Nat) (hk : k < l.gates.size) : (l.gates.push g).getD k default = l.gates[k] := by
    simp [Array.getD_eq_getD_getElem?, Array.getElem?_push, hk, Nat.ne_of_lt hk]
  -- the gates already there keep their words and their limits
  have earlier : ∀ k ∈ List.range l.gates.size,
      (((l.gates.push g).getD k default).toList.find? fun lit =>
        Literal.index lit ≥ 1 + l.numInputs + k).map (k, ·) = none := by
    intro k mem
    have hk := List.mem_range.1 mem
    simp only [kept k hk, Option.map_eq_none_iff, List.find?_eq_none, decide_eq_true_eq]
    intro lit named
    have := gatesOk k hk lit named
    omega
  -- the outputs read entries before the new gate, so the extra entry changes nothing for them
  have outputs : (l.outputs.find? fun lit => Literal.index lit ≥ l.numEntries + 1) = none := by
    simp only [Array.find?_eq_none, decide_eq_true_eq]
    intro lit named
    have := outputsOk lit named
    omega
  have last : (l.gates.push g).getD l.gates.size default = g := by
    simp [Array.getD_eq_getD_getElem?]
  have limit : 1 + l.numInputs + l.gates.size = l.numEntries := rfl
  have entries : ({ l with gates := l.gates.push g } : IndexList).numEntries = l.numEntries + 1 := by
    simp only [numEntries, Array.size_push]; omega
  rw [firstForwardReference_eq]
  simp only [Array.size_push, List.range_succ, List.findSome?_append, List.findSome?_singleton,
    List.findSome?_eq_none_iff.2 earlier, last, limit, entries, outputs, Option.none_or,
    Option.map_none, Option.or_none]

end ForwardReferences

section Builders

/-- Adding a gate: the first literal that names no defined entry is refused; otherwise the gate
is appended and its literal returned, if its entry fits the literal space. -/
theorem addMaj_eq (l : IndexList) (a b c : Nat) : l.addMaj a b c =
    match [a, b, c].find? (fun lit => Literal.index lit ≥ l.numEntries) with
    | some lit => .error (.literalReferencesLater lit)
    | none =>
      match ({ l with gates := l.gates.push ⟨a, b, c⟩ } : IndexList).literalOfGate l.gates.size with
      | .ok lit => .ok (lit, { l with gates := l.gates.push ⟨a, b, c⟩ })
      | .error e => .error e := by
  by_cases ha : Literal.index a ≥ l.numEntries
  · simp only [addMaj, List.forIn_cons, List.find?_cons, ha, decide_true, if_pos]; rfl
  by_cases hb : Literal.index b ≥ l.numEntries
  · simp only [addMaj, List.forIn_cons, List.find?_cons, ha, hb, decide_true, decide_false,
      if_pos, if_neg, not_false_eq_true]
    rfl
  by_cases hc : Literal.index c ≥ l.numEntries
  · simp only [addMaj, List.forIn_cons, List.find?_cons, ha, hb, hc, decide_true, decide_false,
      if_pos, if_neg, not_false_eq_true]
    rfl
  · simp only [addMaj, List.forIn_cons, List.forIn_nil, List.find?_cons, List.find?_nil, ha, hb,
      hc, decide_false, if_neg, not_false_eq_true, pure_bind, Array.size_push, Nat.add_sub_cancel]
    cases ({ l with gates := l.gates.push ⟨a, b, c⟩ } : IndexList).literalOfGate l.gates.size <;> rfl

/-- The literal of a gate is given exactly when its entry fits the literal space. -/
theorem literalOfGate_eq_ok_iff (l : IndexList) (k lit : Nat) :
    l.literalOfGate k = .ok lit ↔ 1 + l.numInputs + k < maxEntries ∧ lit = l.gateLiteral k := by
  have small : maxEntries < 2 ^ 64 := by decide
  unfold literalOfGate
  split
  next overflow => simp only [reduceCtorEq, false_iff]; omega
  split
  next fits => simp [fits, eq_comm]
  next tooMany => simp [tooMany]

/-- The literal space is checked only after the literals, and with faults of its own. -/
theorem literalOfGate_ne_literalReferencesLater (l : IndexList) (k lit : Nat) :
    l.literalOfGate k ≠ .error (.literalReferencesLater lit) := by
  unfold literalOfGate
  split
  · simp
  split <;> simp

theorem addMaj_rejects_iff (l : IndexList) (a b c lit : Nat) :
    l.addMaj a b c = .error (.literalReferencesLater lit) ↔
      [a, b, c].find? (fun lit => Literal.index lit ≥ l.numEntries) = some lit := by
  rw [addMaj_eq]
  split
  next found found' => simp [found']
  next missing =>
    have accepted : ¬(match ({ l with gates := l.gates.push ⟨a, b, c⟩ } : IndexList).literalOfGate
        l.gates.size with
        | .ok lit => .ok (lit, { l with gates := l.gates.push ⟨a, b, c⟩ })
        | .error e => .error e) = (.error (.literalReferencesLater lit) : Except Fault _) := by
      cases gate : ({ l with gates := l.gates.push ⟨a, b, c⟩ } : IndexList).literalOfGate
        l.gates.size with
      | ok r => simp
      | error e =>
        simp only [Except.error.injEq]
        rintro rfl
        exact literalOfGate_ne_literalReferencesLater _ _ _ gate
    simp [accepted, missing]

/-- Adding a gate succeeds exactly when its literals name defined entries and its own entry fits
the literal space; the result is the gate's literal and the list with the gate appended. -/
theorem addMaj_eq_ok_iff (l : IndexList) (a b c lit : Nat) (l' : IndexList) :
    l.addMaj a b c = .ok (lit, l') ↔
      (∀ x ∈ [a, b, c], Literal.index x < l.numEntries) ∧ l.numEntries < maxEntries ∧
        lit = l.gateLiteral l.gates.size ∧ l' = { l with gates := l.gates.push ⟨a, b, c⟩ } := by
  rw [addMaj_eq]
  split
  next found found' =>
    simp only [reduceCtorEq, false_iff]
    rintro ⟨defined, -⟩
    have far := List.find?_some found'
    have near := defined _ (List.mem_of_find?_eq_some found')
    simp only [decide_eq_true_eq] at far
    omega
  next missing =>
    have defined : ∀ x ∈ [a, b, c], Literal.index x < l.numEntries := by
      intro x mem
      simpa using List.find?_eq_none.1 missing x mem
    cases gate : ({ l with gates := l.gates.push ⟨a, b, c⟩ } : IndexList).literalOfGate
      l.gates.size with
    | ok r =>
      obtain ⟨fits, rfl⟩ := (literalOfGate_eq_ok_iff _ _ _).1 gate
      simp only [Except.ok.injEq, Prod.mk.injEq]
      exact ⟨fun ⟨same, rest⟩ => ⟨defined, fits, same.symm, rest.symm⟩,
        fun ⟨_, _, same, rest⟩ => ⟨same.symm, rest.symm⟩⟩
    | error e =>
      have tooMany : ¬l.numEntries < maxEntries := fun fits => by
        rw [(literalOfGate_eq_ok_iff { l with gates := l.gates.push ⟨a, b, c⟩ } l.gates.size _).2
          ⟨fits, rfl⟩] at gate
        cases gate
      simp [tooMany]

theorem new_wellFormed (n : Nat) (l : IndexList) (made : IndexList.new n = .ok l) :
    l.isWellFormed ∧ l.numEntries ≤ maxEntries := by
  unfold IndexList.new at made
  split at made
  next fits =>
    cases made
    exact ⟨by simp [isWellFormed_iff], by simpa [numEntries] using fits⟩
  next => cases made

theorem addMaj_wellFormed (l : IndexList) (a b c lit : Nat) (l' : IndexList)
    (added : l.addMaj a b c = .ok (lit, l')) (wf : l.isWellFormed) :
    l'.isWellFormed ∧ l'.numEntries ≤ maxEntries := by
  obtain ⟨defined, fits, -, rfl⟩ := (addMaj_eq_ok_iff l a b c lit l').1 added
  have none : ([a, b, c].find? fun lit => Literal.index lit ≥ l.numEntries) = none := by
    simp only [List.find?_eq_none, decide_eq_true_eq]
    intro x mem
    have := defined x mem
    omega
  refine ⟨?_, ?_⟩
  · simp [isWellFormed, firstForwardReference_push l _ wf, LitGate.toList, none]
  · simp only [numEntries, Array.size_push] at fits ⊢
    omega

theorem addOutput_wellFormed (l : IndexList) (lit : Nat) (l' : IndexList)
    (added : l.addOutput lit = .ok l') (wf : l.isWellFormed) :
    l'.isWellFormed ∧ l'.numEntries = l.numEntries := by
  unfold addOutput at added
  split at added
  next defined =>
    cases added
    obtain ⟨gatesOk, outputsOk⟩ := (isWellFormed_iff l).1 wf
    refine ⟨(isWellFormed_iff _).2 ⟨gatesOk, ?_⟩, rfl⟩
    intro x mem
    rcases Array.mem_push.1 mem with old | rfl
    · exact outputsOk x old
    · exact defined
  next => cases added

/-- The lists the builders make: an empty list over some inputs, extended gate by gate and
output by output. A conjunction or a disjunction is a majority with a constant first literal,
so `addAnd` and `addOr` build through `addMaj`. -/
inductive Built : IndexList → Prop
  | new {n : Nat} {l : IndexList} : IndexList.new n = .ok l → Built l
  | addMaj {l : IndexList} {a b c lit : Nat} {l' : IndexList} :
      Built l → l.addMaj a b c = .ok (lit, l') → Built l'
  | addOutput {l : IndexList} {lit : Nat} {l' : IndexList} :
      Built l → l.addOutput lit = .ok l' → Built l'

/-- Every list the builders make is well formed and fits the literal space. -/
theorem Built.wellFormed {l : IndexList} (built : Built l) :
    l.isWellFormed ∧ l.numEntries ≤ maxEntries := by
  induction built with
  | new made => exact new_wellFormed _ _ made
  | addMaj _ added ih => exact addMaj_wellFormed _ _ _ _ _ _ added ih.1
  | addOutput _ added ih =>
    obtain ⟨wf, same⟩ := addOutput_wellFormed _ _ _ added ih.1
    exact ⟨wf, same ▸ ih.2⟩

/-- On a well-formed list with fewer than `2 ^ 32` outputs and on 32-bit literals, `addMaj`
refuses a literal exactly when the reader, given the list with the gate appended, reports that
literal as a forward reference of the new gate. Past the literal space both sides agree too: no
32-bit literal names an entry there, and the reader reports forward references only inside it. -/
theorem addMaj_rejects_iff_forwardReference (l : IndexList) (a b c lit : Nat)
    (wf : l.isWellFormed) (outputs : l.outputs.size < 2 ^ 32) (ha : a < 2 ^ 32) (hb : b < 2 ^ 32)
    (hc : c < 2 ^ 32) :
    l.addMaj a b c = .error (.literalReferencesLater lit) ↔
      ofRaw ({ l with gates := l.gates.push ⟨a, b, c⟩ } : IndexList).raw =
        .ok (.error (.forwardReference l.numGates lit)) := by
  have entries : ({ l with gates := l.gates.push ⟨a, b, c⟩ } : IndexList).numEntries =
      l.numEntries + 1 := by
    simp only [numEntries, Array.size_push]; omega
  rw [addMaj_rejects_iff]
  by_cases fits : l.numEntries < maxEntries
  · rw [ofRaw_raw_of_fits ({ l with gates := l.gates.push ⟨a, b, c⟩ } : IndexList) (by omega) outputs,
      firstForwardReference_push l _ wf]
    cases found : [a, b, c].find? (fun lit => Literal.index lit ≥ l.numEntries) <;>
      simp [LitGate.toList, found, numGates]
  · refine iff_of_false (fun found => ?_) (fun read => ?_)
    · -- a refused literal names an entry at or past the literal space, which no 32-bit word does
      have far : Literal.index lit ≥ l.numEntries := by simpa using List.find?_some found
      have named := List.mem_of_find?_eq_some found
      simp only [Literal.index] at far
      simp only [List.mem_cons, List.not_mem_nil, or_false] at named
      simp only [maxEntries] at fits
      omega
    · -- the gate count, cut to a word, leaves the entries past the literal space
      obtain ⟨inside, before⟩ := ofRaw_forwardReference read
      rw [getD_raw_numInputs, Array.getD_eq_getD_getElem?, (getElem?_raw_counts _).2.2,
        Option.getD_some] at inside
      rw [Array.getD_eq_getD_getElem?, (getElem?_raw_counts _).2.2, Option.getD_some] at before
      simp only [Array.size_push, numGates, numEntries, maxEntries, UInt32.size] at inside before fits
      omega

/-- The raw form and the reader undo each other over the whole format. On 32-bit words the
reader accepts exactly the raw forms of well-formed lists that fit the literal space and have
fewer than `2 ^ 32` outputs, and returns the list itself; every list the builders make is such
a list once its outputs fit; and `addMaj` refuses a 32-bit literal exactly when the reader
would report it as a forward reference of the new gate. -/
theorem raw_form_codec :
    (∀ (w : Array Nat) (l : IndexList), (∀ x ∈ w, x < 2 ^ 32) →
      (ofRaw w = .ok (.ok l) ↔
        w = l.raw ∧ l.isWellFormed ∧ l.numEntries ≤ maxEntries ∧ l.outputs.size < 2 ^ 32)) ∧
    (∀ l : IndexList, Built l → l.outputs.size < 2 ^ 32 →
      l.isWellFormed ∧ l.numEntries ≤ maxEntries ∧ ofRaw l.raw = .ok (.ok l)) ∧
    (∀ (l : IndexList) (a b c lit : Nat), l.isWellFormed → l.outputs.size < 2 ^ 32 →
      a < 2 ^ 32 → b < 2 ^ 32 → c < 2 ^ 32 →
      (l.addMaj a b c = .error (.literalReferencesLater lit) ↔
        ofRaw ({ l with gates := l.gates.push ⟨a, b, c⟩ } : IndexList).raw =
          .ok (.error (.forwardReference l.numGates lit)))) := by
  refine ⟨ofRaw_eq_ok_iff, ?_, ?_⟩
  · intro l built outputs
    obtain ⟨wf, fits⟩ := built.wellFormed
    exact ⟨wf, fits, ofRaw_raw wf fits outputs⟩
  · intro l a b c lit wf outputs ha hb hc
    exact addMaj_rejects_iff_forwardReference l a b c lit wf outputs ha hb hc

/-- The conjunction of two inputs, as the builders make it, reads back from its raw form, and a
second gate over the entry it would itself become is reported as a forward reference of that
gate. -/
theorem raw_form_codec_and_gate :
    Built ⟨2, #[⟨0, 2, 4⟩], #[6]⟩ ∧
      ofRaw (⟨2, #[⟨0, 2, 4⟩], #[6]⟩ : IndexList).raw = .ok (.ok ⟨2, #[⟨0, 2, 4⟩], #[6]⟩) ∧
      ofRaw (⟨2, #[⟨0, 2, 4⟩, ⟨2, 8, 4⟩], #[6]⟩ : IndexList).raw =
        .ok (.error (.forwardReference 1 8)) := by
  have empty : Built ⟨2, #[], #[]⟩ := .new (rfl : IndexList.new 2 = .ok ⟨2, #[], #[]⟩)
  have conj : Built ⟨2, #[⟨0, 2, 4⟩], #[]⟩ :=
    .addMaj empty (rfl : (⟨2, #[], #[]⟩ : IndexList).addAnd 2 4 = .ok (6, ⟨2, #[⟨0, 2, 4⟩], #[]⟩))
  have built : Built ⟨2, #[⟨0, 2, 4⟩], #[6]⟩ :=
    .addOutput conj (rfl : (⟨2, #[⟨0, 2, 4⟩], #[]⟩ : IndexList).addOutput 6 = .ok ⟨2, #[⟨0, 2, 4⟩], #[6]⟩)
  obtain ⟨wf, -, reads⟩ := raw_form_codec.2.1 _ built (by decide)
  exact ⟨built, reads,
    (raw_form_codec.2.2 _ 2 8 4 8 wf (by decide) (by decide) (by decide) (by decide)).1 rfl⟩

end Builders

end MajorityGraph.IndexList
