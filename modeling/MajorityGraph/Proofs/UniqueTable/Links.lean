import MajorityGraph.Proofs.UniqueTable.Chains

/-!
Linking and unlinking keep the hash chains, and the linked cells change exactly as each
operation says.
-/

namespace MajorityGraph

namespace UniqueTable

variable {α : Type}

-----------------------------------------------------------------------------------------
-- What each primitive does to the cells
-----------------------------------------------------------------------------------------

section Primitives

variable (t : UniqueTable α)

@[simp] theorem add_fst (v : α) : (t.add v).1 = t.cells.size := rfl

@[simp] theorem cells_add (v : α) : (t.add v).2.cells = t.cells.push ⟨v, 0, false⟩ := rfl

@[simp] theorem bits_add (v : α) : (t.add v).2.bits = t.bits := rfl

@[simp] theorem head_add (v : α) (b : Nat) : (t.add v).2.head b = t.head b := rfl

theorem valueAt_add (v : α) (i : Nat)
    : (t.add v).2.valueAt i = if i = t.cells.size then some v else t.valueAt i := by
  simp only [valueAt, cells_add, Array.getElem?_push]
  split <;> rfl

theorem linkedAt_add (v : α) (i : Nat)
    : (t.add v).2.linkedAt i = if i = t.cells.size then false else t.linkedAt i := by
  simp only [linkedAt, cells_add, Array.getElem?_push]
  split <;> rfl

@[simp] theorem cells_setValue (i : Nat) (v : α)
    : (t.setValue i v).cells = t.cells.modify i fun c => { c with value := v } := rfl

@[simp] theorem bits_setValue (i : Nat) (v : α) : (t.setValue i v).bits = t.bits := rfl

@[simp] theorem head_setValue (i : Nat) (v : α) (b : Nat) : (t.setValue i v).head b = t.head b :=
  rfl

@[simp] theorem cells_setNext (i n : Nat)
    : (t.setNext i n).cells = t.cells.modify i fun c => { c with next := n } := rfl

@[simp] theorem bits_setNext (i n : Nat) : (t.setNext i n).bits = t.bits := rfl

@[simp] theorem head_setNext (i n b : Nat) : (t.setNext i n).head b = t.head b := rfl

@[simp] theorem cells_setLinked (i : Nat) (linked : Bool) (n : Nat)
    : (t.setLinked i linked n).cells = t.cells.modify i fun c => { c with next := n, linked } :=
  rfl

@[simp] theorem bits_setLinked (i : Nat) (linked : Bool) (n : Nat)
    : (t.setLinked i linked n).bits = t.bits := rfl

@[simp] theorem head_setLinked (i : Nat) (linked : Bool) (n b : Nat)
    : (t.setLinked i linked n).head b = t.head b := rfl

@[simp] theorem cells_setHead (b i : Nat) : (t.setHead b i).cells = t.cells := rfl

@[simp] theorem bits_setHead (b i : Nat) : (t.setHead b i).bits = t.bits := rfl

theorem head_setHead (b i b' : Nat)
    : (t.setHead b i).head b' = if b = b' then i else t.head b' := by
  simp only [setHead, head]
  rw [Std.HashMap.getD_insert]
  simp

-- values and links under the primitives that only move pointers or rewrite one value

@[simp] theorem valueAt_setValue (t : UniqueTable α) (i : Nat) (v : α) (j : Nat)
    : (t.setValue i v).valueAt j = if i = j then (t.valueAt j).map fun _ => v else t.valueAt j := by
  simp only [valueAt, cells_setValue, Array.getElem?_modify]
  split <;> cases t.cells[j]? <;> rfl

@[simp] theorem linkedAt_setValue (t : UniqueTable α) (i : Nat) (v : α) (j : Nat)
    : (t.setValue i v).linkedAt j = t.linkedAt j := by
  simp only [linkedAt, cells_setValue, Array.getElem?_modify]
  split <;> cases t.cells[j]? <;> rfl

@[simp] theorem valueAt_setNext (t : UniqueTable α) (i n j : Nat)
    : (t.setNext i n).valueAt j = t.valueAt j := by
  simp only [valueAt, cells_setNext, Array.getElem?_modify]
  split <;> cases t.cells[j]? <;> rfl

@[simp] theorem linkedAt_setNext (t : UniqueTable α) (i n j : Nat)
    : (t.setNext i n).linkedAt j = t.linkedAt j := by
  simp only [linkedAt, cells_setNext, Array.getElem?_modify]
  split <;> cases t.cells[j]? <;> rfl

@[simp] theorem valueAt_setLinked (t : UniqueTable α) (i : Nat) (linked : Bool) (n j : Nat)
    : (t.setLinked i linked n).valueAt j = t.valueAt j := by
  simp only [valueAt, cells_setLinked, Array.getElem?_modify]
  split <;> cases t.cells[j]? <;> rfl

theorem linkedAt_setLinked_false (t : UniqueTable α) (i n j : Nat)
    : (t.setLinked i false n).linkedAt j = (j != i && t.linkedAt j) := by
  by_cases same : j = i
  · subst same
    simp only [linkedAt, cells_setLinked, Array.getElem?_modify]
    cases t.cells[j]? <;> simp
  · simp [linkedAt, Array.getElem?_modify, Ne.symm same, same]

end Primitives

-----------------------------------------------------------------------------------------
-- Changes that keep every chain
-----------------------------------------------------------------------------------------

section Frame

variable [BucketHash α]

/-- Cell `i` is linked into a bucket exactly when it is linked. -/
theorem linkedIn_iff {t : UniqueTable α} {i : Nat}
    : (∃ b, t.LinkedIn b i) ↔ t.linkedAt i = true := by
  rw [linkedAt_eq_true]
  constructor
  · rintro ⟨b, c, cell, linked, _⟩
    exact ⟨c, cell, linked⟩
  · rintro ⟨c, cell, linked⟩
    exact ⟨_, c, cell, linked, rfl⟩

/-- A change that keeps the bits, the heads, which cells are linked and the linked cells
themselves keeps the chain invariant. -/
theorem Indexed.of_links_kept {t t' : UniqueTable α} (indexed : t.Indexed)
    (bits : t'.bits = t.bits) (heads : ∀ b, t'.head b = t.head b)
    (linked : ∀ j, t'.linkedAt j = t.linkedAt j)
    (kept : ∀ j, t.linkedAt j = true → t'.cells[j]? = t.cells[j]?)
    : t'.Indexed := by
  have bucketOf_same : ∀ v, t'.bucketOf v = t.bucketOf v := fun v => by
    simp only [bucketOf, bits]
  have linkedIn_same : ∀ b j, t'.LinkedIn b j ↔ t.LinkedIn b j := by
    intro b j
    by_cases isLinked : t.linkedAt j = true
    · simp only [LinkedIn, kept j isLinked, bucketOf_same]
    · have notLinked' : ¬ t'.linkedAt j = true := by rw [linked j]; exact isLinked
      constructor
      · rintro ⟨c, cell, on, _⟩
        exact absurd (linkedAt_eq_true.mpr ⟨c, cell, on⟩) notLinked'
      · rintro ⟨c, cell, on, _⟩
        exact absurd (linkedAt_eq_true.mpr ⟨c, cell, on⟩) isLinked
  refine ⟨fun b lt => ?_, by rw [linked 0]; exact indexed.sentinel⟩
  have lt' : b < t.bucketCount := by simpa only [bucketCount, bits] using lt
  obtain ⟨l, chain, distinct, members⟩ := indexed.chains b lt'
  refine ⟨l, ?_, distinct, fun j => by rw [linkedIn_same]; exact members j⟩
  rw [heads]
  refine chain.congr fun j member => ?_
  obtain ⟨c, cell, on, _⟩ := (members j).mp member
  rw [kept j (linkedAt_eq_true.mpr ⟨c, cell, on⟩)]

/-- A table without cells has empty chains. -/
theorem Indexed.empty (bits : Nat) : (⟨#[], {}, bits, 0⟩ : UniqueTable α).Indexed := by
  refine ⟨fun b _ => ⟨[], ?_, List.nodup_nil, fun i => ?_⟩, rfl⟩
  · have : (⟨#[], {}, bits, 0⟩ : UniqueTable α).head b = 0 := by simp [head]
    rw [this]
    exact .nil
  · simp [LinkedIn]

/-- Adding a cell keeps the chains; the new cell is not linked. -/
theorem Indexed.add {t : UniqueTable α} (indexed : t.Indexed) (v : α) : (t.add v).2.Indexed := by
  have lookup : ∀ j, j < t.cells.size → (t.add v).2.cells[j]? = t.cells[j]? := by
    intro j lt
    simp [Array.getElem?_push, Nat.ne_of_lt lt]
  refine indexed.of_links_kept rfl (fun _ => rfl) (fun j => ?_) (fun j on => ?_)
  · by_cases lt : j < t.cells.size
    · simp only [linkedAt, lookup j lt]
    · simp only [linkedAt, cells_add, Array.getElem?_push]
      have none : t.cells[j]? = none := Array.getElem?_eq_none (by omega)
      split <;> simp [none]
  · obtain ⟨c, cell, _⟩ := linkedAt_eq_true.mp on
    exact lookup j (Array.getElem?_eq_some_iff.mp cell).1

/-- Rewriting the value of an unlinked cell keeps the chains. -/
theorem Indexed.setValue {t : UniqueTable α} (indexed : t.Indexed) {i : Nat} (v : α)
    (unlinked : t.linkedAt i = false)
    : (t.setValue i v).Indexed := by
  refine indexed.of_links_kept rfl (fun _ => rfl) (fun j => ?_) (fun j on => ?_)
  · simp only [linkedAt, cells_setValue, Array.getElem?_modify]
    split <;> cases t.cells[j]? <;> rfl
  · have other : i ≠ j := by
      rintro rfl
      rw [unlinked] at on
      cases on
    simp [Array.getElem?_modify, other]

end Frame

-----------------------------------------------------------------------------------------
-- Putting a cell at the front of its bucket
-----------------------------------------------------------------------------------------

section Rechain

variable [BucketHash α]

/-- Whether cell `j` is linked into bucket `b`, as a test. -/
def linkedInBucket (t : UniqueTable α) (b j : Nat) : Bool :=
  t.linkedAt j && (t.valueAt j).any fun v => t.bucketOf v == b

theorem linkedInBucket_eq_true {t : UniqueTable α} {b j : Nat}
    : t.linkedInBucket b j = true ↔ t.LinkedIn b j := by
  unfold linkedInBucket LinkedIn linkedAt valueAt
  cases t.cells[j]? <;> simp

/-- Rechaining a cell changes only its next-pointer. -/
theorem cells_chainIn {t : UniqueTable α} {i : Nat} {c : Cell α} (found : t.cells[i]? = some c)
    : (t.chainIn i).cells =
        t.cells.modify i fun d => { d with next := t.head (t.bucketOf c.value) } := by
  simp [chainIn, found]

@[simp] theorem bits_chainIn (t : UniqueTable α) (i : Nat) : (t.chainIn i).bits = t.bits := by
  unfold chainIn
  split <;> rfl

/-- Rechaining a cell makes it the head of its bucket and leaves the other heads. -/
theorem head_chainIn {t : UniqueTable α} {i : Nat} {c : Cell α} (found : t.cells[i]? = some c)
    (b : Nat) : (t.chainIn i).head b = if t.bucketOf c.value = b then i else t.head b := by
  simp [chainIn, found, head_setHead]

/-- Rechaining keeps the values and the links of every cell. -/
theorem valueAt_chainIn (t : UniqueTable α) (i j : Nat)
    : (t.chainIn i).valueAt j = t.valueAt j := by
  unfold chainIn
  split
  · simp only [valueAt, cells_setHead, cells_setNext, Array.getElem?_modify]
    split <;> cases t.cells[j]? <;> rfl
  · rfl

theorem linkedAt_chainIn (t : UniqueTable α) (i j : Nat)
    : (t.chainIn i).linkedAt j = t.linkedAt j := by
  unfold chainIn
  split
  · simp only [linkedAt, cells_setHead, cells_setNext, Array.getElem?_modify]
    split <;> cases t.cells[j]? <;> rfl
  · rfl

theorem linkedInBucket_chainIn (t : UniqueTable α) (i b j : Nat)
    : (t.chainIn i).linkedInBucket b j = t.linkedInBucket b j := by
  simp only [linkedInBucket, linkedAt_chainIn, valueAt_chainIn, bucketOf, bits_chainIn]

theorem size_chainIn (t : UniqueTable α) (i : Nat) : (t.chainIn i).cells.size = t.cells.size := by
  unfold chainIn
  split <;> simp

/-- A cell put in front of its bucket starts that bucket's chain; every chain without the cell
stays as it was. -/
theorem Chain.chainIn {t : UniqueTable α} {i b : Nat} {c : Cell α} {l : List Nat}
    (found : t.cells[i]? = some c) (start : i ≠ 0) (chain : t.Chain (t.head b) l)
    (absent : i ∉ l)
    : (t.chainIn i).Chain ((t.chainIn i).head b)
        (if t.bucketOf c.value = b then i :: l else l) := by
  have kept : ∀ j ∈ l,
      ((t.chainIn i).cells[j]?).map (·.next) = (t.cells[j]?).map (·.next) := by
    intro j member
    have other : i ≠ j := fun same => absent (same ▸ member)
    rw [cells_chainIn found]
    simp [Array.getElem?_modify, other]
  rw [head_chainIn found]
  split
  · rename_i same
    refine .cons (c := { c with next := t.head (t.bucketOf c.value) }) start ?_ ?_
    · rw [cells_chainIn found]
      simp [Array.getElem?_modify, found]
    · rw [same]
      exact chain.congr kept
  · exact chain.congr kept

/-- The fold of `grow` puts the linked cells of the list in front of their chains, the last one
first. -/
theorem Chain.foldl_chainIn {xs : List Nat} {acc : UniqueTable α} {ys : Nat → List Nat}
    (nonzero : ∀ j ∈ xs, j ≠ 0) (distinct : xs.Nodup)
    (chains : ∀ b, acc.Chain (acc.head b) (ys b)) (fresh : ∀ b, ∀ j ∈ xs, j ∉ ys b)
    : ∀ b, (xs.foldl (fun acc i =>
        if ((acc.cells[i]?).map (·.linked)).getD false then acc.chainIn i else acc) acc).Chain
        ((xs.foldl (fun acc i =>
          if ((acc.cells[i]?).map (·.linked)).getD false then acc.chainIn i else acc) acc).head b)
        ((xs.filter (acc.linkedInBucket b)).reverse ++ ys b) := by
  induction xs generalizing acc ys with
  | nil => simpa using chains
  | cons x rest ih =>
      have restNonzero : ∀ j ∈ rest, j ≠ 0 := fun j member => nonzero j (by simp [member])
      obtain ⟨notHere, restDistinct⟩ := List.nodup_cons.mp distinct
      intro b
      simp only [List.foldl_cons]
      by_cases linked : ((acc.cells[x]?).map (·.linked)).getD false = true
      · obtain ⟨c, found, _⟩ := linkedAt_eq_true.mp linked
        simp only [linked, if_true]
        have step := fun b => Chain.chainIn (b := b) found (nonzero x (by simp)) (chains b)
          (fresh b x (by simp))
        have same : ∀ b' j, (acc.chainIn x).linkedInBucket b' j = acc.linkedInBucket b' j :=
          linkedInBucket_chainIn acc x
        have result := ih restNonzero restDistinct step (fun b' j member => by
          split
          · simp only [List.mem_cons, not_or]
            exact ⟨fun same => notHere (same ▸ member), fresh b' j (by simp [member])⟩
          · exact fresh b' j (by simp [member])) b
        have filterSame : rest.filter ((acc.chainIn x).linkedInBucket b) =
            rest.filter (acc.linkedInBucket b) := List.filter_congr fun j _ => same b j
        rw [filterSame] at result
        have isLinked : acc.linkedAt x = true := linked
        rw [List.filter_cons]
        by_cases here : acc.bucketOf c.value = b
        · have inBucket : acc.linkedInBucket b x = true := by
            simp [linkedInBucket, isLinked, valueAt, found, here]
          simpa [here, inBucket] using result
        · have outside : acc.linkedInBucket b x = false := by
            simp [linkedInBucket, isLinked, valueAt, found, here]
          simpa [here, outside] using result
      · have unlinked : acc.linkedInBucket b x = false := by
          simp [linkedInBucket, linkedAt, linked]
        simp only [linked, Bool.false_eq_true, if_false]
        rw [List.filter_cons, unlinked]
        exact ih restNonzero restDistinct chains
          (fun b' j member => fresh b' j (by simp [member])) b

/-- The fold of `grow` keeps the bits, the size, the values and the links. -/
theorem foldl_chainIn_frame (xs : List Nat) (acc : UniqueTable α)
    : let r := xs.foldl (fun acc i =>
        if ((acc.cells[i]?).map (·.linked)).getD false then acc.chainIn i else acc) acc
      r.bits = acc.bits ∧ r.cells.size = acc.cells.size ∧
        (∀ j, r.valueAt j = acc.valueAt j) ∧ (∀ j, r.linkedAt j = acc.linkedAt j) := by
  induction xs generalizing acc with
  | nil => exact ⟨rfl, rfl, fun _ => rfl, fun _ => rfl⟩
  | cons x rest ih =>
      simp only [List.foldl_cons]
      split
      · obtain ⟨bits, size, values, links⟩ := ih (acc.chainIn x)
        exact ⟨by rw [bits, bits_chainIn], by rw [size, size_chainIn],
          fun j => by rw [values, valueAt_chainIn], fun j => by rw [links, linkedAt_chainIn]⟩
      · exact ih acc

@[simp] theorem bits_grow (t : UniqueTable α) : t.grow.bits = t.bits + 1 := by
  obtain ⟨cells, heads, bits, count⟩ := t
  exact (foldl_chainIn_frame _ _).1

@[simp] theorem size_grow (t : UniqueTable α) : t.grow.cells.size = t.cells.size := by
  obtain ⟨cells, heads, bits, count⟩ := t
  exact (foldl_chainIn_frame _ _).2.1

@[simp] theorem valueAt_grow (t : UniqueTable α) (j : Nat) : t.grow.valueAt j = t.valueAt j := by
  obtain ⟨cells, heads, bits, count⟩ := t
  exact (foldl_chainIn_frame _ _).2.2.1 j

@[simp] theorem linkedAt_grow (t : UniqueTable α) (j : Nat)
    : t.grow.linkedAt j = t.linkedAt j := by
  obtain ⟨cells, heads, bits, count⟩ := t
  exact (foldl_chainIn_frame _ _).2.2.2 j

/-- Growing keeps the value and the link flag of every cell. -/
theorem cell_grow {t : UniqueTable α} {i : Nat} {c : Cell α} (found : t.cells[i]? = some c)
    : ∃ c', t.grow.cells[i]? = some c' ∧ c'.value = c.value ∧ c'.linked = c.linked := by
  have values := valueAt_grow t i
  have links := linkedAt_grow t i
  simp only [valueAt, linkedAt, found] at values links
  cases grown : t.grow.cells[i]? with
  | none => simp [grown] at values
  | some c' =>
    simp [grown] at values links
    exact ⟨c', rfl, values, links⟩

/-- Growing doubles the buckets and chains every linked cell again. -/
theorem Indexed.grow {t : UniqueTable α} (indexed : t.Indexed) : t.grow.Indexed := by
  obtain ⟨cells, heads, bits, count⟩ := t
  let start : UniqueTable α := ⟨cells, {}, bits + 1, count⟩
  have empty : ∀ b, start.Chain (start.head b) [] := fun b => by
    have : start.head b = 0 := by simp [start, head]
    rw [this]
    exact .nil
  have chains := @Chain.foldl_chainIn α _ (List.range' 1 (cells.size - 1)) start (fun _ => [])
    (fun j member => by simp at member; omega) List.nodup_range'
    empty (fun _ _ _ => List.not_mem_nil)
  -- the grown table links the same cells with the same values as `start`, and has its bits
  have sameLinks : ∀ b j,
      (UniqueTable.grow ⟨cells, heads, bits, count⟩).LinkedIn b j ↔ start.LinkedIn b j := by
    intro b j
    rw [← linkedInBucket_eq_true, ← linkedInBucket_eq_true]
    simp only [linkedInBucket, linkedAt_grow, valueAt_grow, bucketOf, bits_grow]
    rfl
  have sentinel : start.linkedAt 0 = false := indexed.sentinel
  refine ⟨fun b _ => ⟨_, chains b, ?_, fun j => ?_⟩, by rw [linkedAt_grow]; exact sentinel⟩
  · rw [List.append_nil, List.Nodup, List.pairwise_reverse]
    exact ((List.nodup_range' (s := 1) (n := cells.size - 1)).filter _).imp Ne.symm
  · rw [sameLinks, List.append_nil, List.mem_reverse, List.mem_filter, linkedInBucket_eq_true,
      List.mem_range'_1]
    constructor
    · exact fun member => member.2
    · intro linked
      refine ⟨?_, linked⟩
      obtain ⟨c, cell, on, _⟩ := linked
      have lt : j < cells.size := (Array.getElem?_eq_some_iff.mp cell).1
      have nonzero : j ≠ 0 := by
        rintro rfl
        rw [linkedAt_eq_true.mpr ⟨c, cell, on⟩] at sentinel
        cases sentinel
      omega

end Rechain

-----------------------------------------------------------------------------------------
-- Linking
-----------------------------------------------------------------------------------------

section Linking

variable [BucketHash α]

/-- A cell that becomes linked at the front of its bucket, pointing to the old head, keeps the
chain invariant; no other cell changes. -/
theorem Indexed.insertFront {t t' : UniqueTable α} {i : Nat} {c : Cell α} (indexed : t.Indexed)
    (start : i ≠ 0) (found : t.cells[i]? = some c) (unlinked : c.linked = false)
    (bits : t'.bits = t.bits)
    (heads : ∀ b, t'.head b = if t.bucketOf c.value = b then i else t.head b)
    (front : t'.cells[i]? = some { c with next := t.head (t.bucketOf c.value), linked := true })
    (others : ∀ j, j ≠ i → t'.cells[j]? = t.cells[j]?)
    : t'.Indexed := by
  have bucketOf_same : ∀ v, t'.bucketOf v = t.bucketOf v := fun v => by
    simp only [bucketOf, bits]
  have notIn : ∀ b, ¬ t.LinkedIn b i := by
    rintro b ⟨c', cell, on, _⟩
    rw [found] at cell
    cases cell
    rw [unlinked] at on
    cases on
  have sameElsewhere : ∀ b j, j ≠ i → (t'.LinkedIn b j ↔ t.LinkedIn b j) := by
    intro b j other
    simp only [LinkedIn, others j other, bucketOf_same]
  refine ⟨fun b lt => ?_, ?_⟩
  · have lt' : b < t.bucketCount := by simpa only [bucketCount, bits] using lt
    obtain ⟨l, chain, distinct, members⟩ := indexed.chains b lt'
    have absent : i ∉ l := fun member => notIn b ((members i).mp member)
    have kept : ∀ j ∈ l, (t'.cells[j]?).map (·.next) = (t.cells[j]?).map (·.next) :=
      fun j member => by rw [others j fun same => absent (same ▸ member)]
    refine ⟨if t.bucketOf c.value = b then i :: l else l, ?_, ?_, fun j => ?_⟩
    · rw [heads b]
      split
      · rename_i here
        refine .cons start front ?_
        rw [here]
        exact chain.congr kept
      · exact chain.congr kept
    · split
      · exact List.nodup_cons.mpr ⟨absent, distinct⟩
      · exact distinct
    · by_cases same : j = i
      · subst same
        have linkedHere : t'.LinkedIn b j ↔ t.bucketOf c.value = b := by
          simp [LinkedIn, front, bucketOf_same]
        rw [linkedHere]
        split <;> simp_all
      · rw [sameElsewhere b j same, ← members j]
        split <;> simp [same]
  · have untouched := others 0 fun zero => start zero.symm
    simpa [linkedAt, untouched] using indexed.sentinel

/-- Putting an unlinked cell in front of its bucket and marking it linked keeps the chains. -/
theorem Indexed.chainIn_setLinked {t : UniqueTable α} {i : Nat} {c : Cell α} (indexed : t.Indexed)
    (start : i ≠ 0) (found : t.cells[i]? = some c) (unlinked : c.linked = false)
    : ((t.chainIn i).setLinked i true ((t.chainIn i).nextOf i)).Indexed := by
  have cells₂ := cells_chainIn found
  refine indexed.insertFront start found unlinked (by simp) (fun b => ?_) ?_ (fun j other => ?_)
  · rw [head_setLinked, head_chainIn found]
  · simp [cells₂, nextOf, Array.getElem?_modify, found]
  · simp [cells₂, Array.getElem?_modify, Ne.symm other]

/-- Putting a cell in front of its bucket and marking it linked keeps the size and the values,
and adds that cell to the linked ones. -/
theorem frame_chainIn_setLinked {t : UniqueTable α} {i : Nat} {c : Cell α}
    (found : t.cells[i]? = some c) (n : Nat)
    : ((t.chainIn i).setLinked i true n).cells.size = t.cells.size ∧
      (∀ j, ((t.chainIn i).setLinked i true n).valueAt j = t.valueAt j) ∧
      ∀ j, ((t.chainIn i).setLinked i true n).linkedAt j = (j == i || t.linkedAt j) := by
  refine ⟨by simp [size_chainIn], fun j => ?_, fun j => ?_⟩
  · rw [← valueAt_chainIn t i j]
    simp only [valueAt, cells_setLinked, Array.getElem?_modify]
    split <;> cases (t.chainIn i).cells[j]? <;> rfl
  · rw [← linkedAt_chainIn t i j]
    by_cases same : j = i
    · subst same
      simp [linkedAt, cells_chainIn found, Array.getElem?_modify, found]
    · simp [linkedAt, Array.getElem?_modify, Ne.symm same, same]

/-- Linking a cell that the table has, that is not the sentinel and is not linked, succeeds. -/
theorem link_isOk {t : UniqueTable α} {i : Nat} {c : Cell α} (start : i ≠ 0)
    (found : t.cells[i]? = some c) (unlinked : c.linked = false)
    : ∃ t', t.link i = .ok t' := by
  simp [UniqueTable.link, start, cell, found, unlinked, bind, Except.bind, pure, Except.pure]

/-- Linking a cell puts it in front of its bucket, after growing the buckets when the table is
full. The values stay, and the linked cells gain exactly that cell. -/
theorem Indexed.link {t t' : UniqueTable α} {i : Nat} (indexed : t.Indexed)
    (linked : t.link i = .ok t')
    : t'.Indexed ∧ t'.cells.size = t.cells.size ∧ (∀ j, t'.valueAt j = t.valueAt j) ∧
        ∀ j, t'.linkedAt j = (j == i || t.linkedAt j) := by
  unfold UniqueTable.link at linked
  by_cases zero : i = 0
  · simp [zero, bind, Except.bind] at linked
  cases cellEq : t.cells[i]? with
  | none => simp [zero, cell, cellEq, bind, Except.bind] at linked
  | some c =>
    by_cases already : c.linked = true
    · simp [zero, cell, cellEq, already, bind, Except.bind] at linked
    -- the optional growth links the same cells with the same values
    generalize grown : (if t.linkedCount + 1 > 2 * t.bucketCount then t.grow else t) = t₁ at linked
    simp [zero, cell, cellEq, already, bind, Except.bind, pure, Except.pure] at linked
    subst linked
    have kept : t₁.Indexed ∧ t₁.cells.size = t.cells.size ∧
        (∀ j, t₁.valueAt j = t.valueAt j) ∧
        (∀ j, t₁.linkedAt j = t.linkedAt j) ∧
        ∃ c₁, t₁.cells[i]? = some c₁ ∧ c₁.linked = false := by
      subst grown
      split
      · obtain ⟨c₁, found₁, _, sameLink⟩ := cell_grow cellEq
        exact ⟨indexed.grow, by simp, by simp, by simp, c₁, found₁,
          by simpa [sameLink] using already⟩
      · exact ⟨indexed, rfl, fun _ => rfl, fun _ => rfl, c, cellEq, by simpa using already⟩
    obtain ⟨indexed₁, size₁, values₁, links₁, c₁, found₁, unlinked₁⟩ := kept
    obtain ⟨size₂, values₂, links₂⟩ :=
      frame_chainIn_setLinked found₁ ((t₁.chainIn i).nextOf i)
    refine ⟨indexed₁.chainIn_setLinked zero found₁ unlinked₁, by rw [size₂, size₁],
      fun j => by rw [values₂, values₁], fun j => ?_⟩
    rw [links₂, links₁]

end Linking

-----------------------------------------------------------------------------------------
-- Unlinking
-----------------------------------------------------------------------------------------

section Unlinking

variable [BucketHash α]

/-- A linked cell whose predecessor in its chain, or its bucket's head, is pointed past it and
which is then marked unlinked leaves the chain invariant; no other cell changes. -/
theorem Indexed.bypass {t t' : UniqueTable α} {i : Nat} {c : Cell α} (indexed : t.Indexed)
    (found : t.cells[i]? = some c) (linked : c.linked = true)
    (bits : t'.bits = t.bits)
    (heads : ∀ b, t'.head b =
      if b = t.bucketOf c.value ∧ t.head b = i then c.next else t.head b)
    (taken : t'.linkedAt i = false)
    (bypassed : ∀ j, j ≠ i → t'.cells[j]? = (t.cells[j]?).map fun d =>
      if d.linked ∧ t.bucketOf d.value = t.bucketOf c.value ∧ d.next = i then
        { d with next := c.next } else d)
    : t'.Indexed := by
  have bucketOf_same : ∀ v, t'.bucketOf v = t.bucketOf v := fun v => by
    simp only [bucketOf, bits]
  have sameElsewhere : ∀ b j, j ≠ i → (t'.LinkedIn b j ↔ t.LinkedIn b j) := by
    intro b j other
    simp only [LinkedIn, bypassed j other, bucketOf_same]
    cases t.cells[j]? with
    | none => simp
    | some d =>
        simp only [Option.map_some, Option.some.injEq, exists_eq_left']
        split <;> rfl
  have notIn : ∀ b, ¬ t'.LinkedIn b i := by
    rintro b ⟨c', cell, on, _⟩
    rw [linkedAt_eq_true.mpr ⟨c', cell, on⟩] at taken
    cases taken
  have home : t.LinkedIn (t.bucketOf c.value) i := ⟨c, found, linked, rfl⟩
  refine ⟨fun b lt => ?_, ?_⟩
  · have lt' : b < t.bucketCount := by simpa only [bucketCount, bits] using lt
    obtain ⟨l, chain, distinct, members⟩ := indexed.chains b lt'
    by_cases here : b = t.bucketOf c.value
    · subst here
      have member : i ∈ l := (members i).mpr home
      refine ⟨l.erase i, ?_, distinct.erase i, fun j => ?_⟩
      · rw [heads]
        simp only [true_and]
        refine chain.erase distinct member found fun j inChain other => ?_
        obtain ⟨d, cell, on, inBucket⟩ := (members j).mp inChain
        simp [bypassed j other, cell, on, inBucket]
        split <;> rfl
      · by_cases same : j = i
        · subst same
          simp only [distinct.not_mem_erase, false_iff]
          exact notIn _
        · rw [sameElsewhere _ j same, List.mem_erase_of_ne same, members]
    · have absent : i ∉ l := fun member => by
        obtain ⟨c', cell, _, inBucket⟩ := (members i).mp member
        rw [found] at cell
        cases cell
        exact here inBucket.symm
      refine ⟨l, ?_, distinct, fun j => ?_⟩
      · rw [heads b, if_neg fun both => here both.1]
        refine chain.congr fun j inChain => ?_
        have other : j ≠ i := fun same => absent (same ▸ inChain)
        obtain ⟨d, cell, on, inBucket⟩ := (members j).mp inChain
        have outside : t.bucketOf d.value ≠ t.bucketOf c.value := inBucket ▸ here
        simp [bypassed j other, cell, outside]
      · by_cases same : j = i
        · subst same
          simp only [absent, false_iff]
          exact notIn _
        · rw [sameElsewhere _ j same, members]
  · have sentinel := indexed.sentinel
    have nonzero : (0 : Nat) ≠ i := by
      intro zero
      rw [← zero] at found
      simp [linkedAt, found, linked] at sentinel
    simp only [linkedAt, bypassed 0 nonzero] at sentinel ⊢
    cases cell : t.cells[0]? with
    | none => rfl
    | some d =>
        simp only [cell, Option.map_some, Option.getD_some] at sentinel ⊢
        split <;> exact sentinel

/-- Taking a cell out of its chain keeps the size and the values, and unlinks exactly that
cell. -/
theorem Indexed.unlink {t t' : UniqueTable α} {i : Nat} (indexed : t.Indexed)
    (unlinked : t.unlink i = .ok t')
    : t'.Indexed ∧ t'.cells.size = t.cells.size ∧ (∀ j, t'.valueAt j = t.valueAt j) ∧
        ∀ j, t'.linkedAt j = (j != i && t.linkedAt j) := by
  unfold UniqueTable.unlink at unlinked
  by_cases zero : i = 0
  · simp [zero, bind, Except.bind] at unlinked
  cases cellEq : t.cells[i]? with
  | none => simp [zero, cell, cellEq, bind, Except.bind] at unlinked
  | some c =>
    cases on : c.linked with
    | false =>
      simp [zero, cell, cellEq, on, bind, Except.bind, pure, Except.pure] at unlinked
      subst unlinked
      refine ⟨indexed, rfl, fun _ => rfl, fun j => ?_⟩
      by_cases same : j = i
      · simp [same, linkedAt, cellEq, on]
      · simp [same]
    | true =>
    simp [zero, cell, cellEq, on, bind, Except.bind, pure, Except.pure] at unlinked
    -- the chain of the cell's bucket, through the cell
    have lt : t.bucketOf c.value < t.bucketCount := bucketOf_lt t c.value
    obtain ⟨l, chain, distinct, members⟩ := indexed.chains _ lt
    have member : i ∈ l := (members i).mpr ⟨c, cellEq, on, rfl⟩
    have onChain : ∀ j d, t.cells[j]? = some d → d.linked = true →
        t.bucketOf d.value = t.bucketOf c.value → j ∈ l :=
      fun j d cell linked inBucket => (members j).mpr ⟨d, cell, linked, inBucket⟩
    split at unlinked
    · rename_i first
      cases unlinked
      refine ⟨indexed.bypass cellEq on rfl (fun b => ?_) (by simp [linkedAt_setLinked_false])
        (fun j other => ?_), by simp, fun j => by rw [valueAt_setLinked]; rfl,
        fun j => by rw [linkedAt_setLinked_false]; rfl⟩
      · rw [head_setLinked, head_setHead]
        by_cases here : t.bucketOf c.value = b
        · subst here
          simp [first]
        · simp [here, Ne.symm here]
      · -- no member of the chain points back at its first cell
        simp only [cells_setLinked, cells_setHead, Array.getElem?_modify, Ne.symm other, if_false]
        cases cell : t.cells[j]? with
        | none => rfl
        | some d =>
            simp only [Option.map_some, Option.some.injEq]
            rw [if_neg]
            rintro ⟨linked, inBucket, next⟩
            have back : t.nextOf j = t.head (t.bucketOf c.value) := by
              simp [nextOf, cell, next, first]
            exact chain.nextOf_ne_start (onChain j d cell linked inBucket) back
    · rename_i notFirst
      split at unlinked
      · cases unlinked
      · rename_i p found
        cases unlinked
        have start : t.head (t.bucketOf c.value) ≠ 0 := fun empty => by
          rw [empty] at chain
          rw [chain.eq_nil_of_zero] at member
          simp at member
        obtain ⟨before, pointing⟩ := prevOf_eq_ok chain start found
        have notSelf : p ≠ i := fun same =>
          chain.nextOf_ne_self distinct before (pointing.trans same.symm)
        obtain ⟨d, cellP, linkedP, inBucketP⟩ := (members p).mp before
        refine ⟨indexed.bypass cellEq on rfl (fun b => ?_) (by simp [linkedAt_setLinked_false])
          (fun j other => ?_), by simp, fun j => by rw [valueAt_setLinked, valueAt_setNext],
          fun j => by rw [linkedAt_setLinked_false, linkedAt_setNext]⟩
        · rw [head_setLinked, head_setNext, if_neg]
          rintro ⟨rfl, first⟩
          exact notFirst first
        · simp only [cells_setLinked, cells_setNext, Array.getElem?_modify, Ne.symm other,
            if_false]
          by_cases here : j = p
          · -- the predecessor now points past the cell
            subst here
            have next : d.next = i := by simpa [nextOf, cellP] using pointing
            simp [cellP, linkedP, inBucketP, next]
          · -- any other cell pointing at the cell would be a second predecessor
            simp only [Ne.symm here, if_false]
            cases cell : t.cells[j]? with
            | none => rfl
            | some e =>
                simp only [Option.map_some, Option.some.injEq]
                rw [if_neg]
                rintro ⟨linked, inBucket, next⟩
                have same : t.nextOf j = t.nextOf p := by
                  rw [pointing]
                  simp [nextOf, cell, next]
                exact here (chain.eq_of_nextOf_eq (onChain j e cell linked inBucket) before same)

end Unlinking

-----------------------------------------------------------------------------------------
-- Putting a value
-----------------------------------------------------------------------------------------

section Putting

variable [BucketHash α] [BEq α]

/-- Putting a value into a table that has its sentinel cell succeeds. -/
theorem put_isOk {t : UniqueTable α} (v : α) (nonempty : t.cells.size ≠ 0)
    : ∃ r, t.put v = .ok r := by
  unfold UniqueTable.put
  cases t.find v with
  | some k => exact ⟨_, rfl⟩
  | none =>
      obtain ⟨t₂, linked⟩ := link_isOk (t := (t.add v).2) (c := ⟨v, 0, false⟩) nonempty
        (by simp) rfl
      simp [linked, Functor.map, Except.map]

variable [LawfulBEq α]

/-- Putting a value returns a linked cell holding it. A new cell is made only when no linked cell
holds the value: it comes last, and every other cell keeps its value and link. -/
theorem Indexed.put {t t' : UniqueTable α} {v : α} {i : Nat} {created : Bool}
    (indexed : t.Indexed) (put : t.put v = .ok ((i, created), t'))
    : t'.Indexed ∧ t'.valueAt i = some v ∧ t'.linkedAt i = true ∧
        if created then
          t.find v = none ∧ i = t.cells.size ∧ t'.cells.size = t.cells.size + 1 ∧
            ∀ j, j ≠ i → t'.valueAt j = t.valueAt j ∧ t'.linkedAt j = t.linkedAt j
        else t' = t := by
  unfold UniqueTable.put at put
  cases look : t.find v with
  | some k =>
      simp only [look, Except.ok.injEq, Prod.mk.injEq] at put
      obtain ⟨⟨rfl, rfl⟩, rfl⟩ := put
      obtain ⟨c, cell, linked, value⟩ := indexed.find_eq_some look
      exact ⟨indexed, by simp [valueAt, cell, value], by simp [linkedAt, cell, linked], rfl⟩
  | none =>
      simp only [look] at put
      cases linked : (t.add v).2.link t.cells.size with
      | error e => simp [linked, Functor.map, Except.map] at put
      | ok t₂ =>
          simp [linked, Functor.map, Except.map] at put
          obtain ⟨⟨rfl, rfl⟩, rfl⟩ := put
          obtain ⟨indexed₂, size₂, values₂, links₂⟩ := (indexed.add v).link linked
          refine ⟨indexed₂, by rw [values₂]; simp [valueAt], by simp [links₂], rfl, rfl,
            by simp [size₂], fun j other => ⟨?_, ?_⟩⟩
          · rw [values₂]
            simp [valueAt, Array.getElem?_push, other]
          · rw [links₂]
            simp [linkedAt, Array.getElem?_push, other]

end Putting

end UniqueTable

end MajorityGraph
