import MajorityGraph.UniqueTable

/-!
Hash chains of the unique table, and the invariant `Indexed` under which look-ups find exactly
the linked cells.
-/

namespace MajorityGraph

namespace UniqueTable

variable {α : Type}

/-- Following next-pointers from cell `i` visits exactly the cells of `l`, in order, and then
reaches 0. -/
inductive Chain (t : UniqueTable α) : Nat → List Nat → Prop
  | nil : t.Chain 0 []
  | cons {i : Nat} {c : Cell α} {l : List Nat} (start : i ≠ 0) (found : t.cells[i]? = some c)
      (rest : t.Chain c.next l) : t.Chain i (i :: l)

/-- The value stored at index `i`, if the table has that cell. -/
def valueAt (t : UniqueTable α) (i : Nat) : Option α := (t.cells[i]?).map (·.value)

/-- Whether the table has a cell at index `i` and that cell is linked. -/
def linkedAt (t : UniqueTable α) (i : Nat) : Bool := ((t.cells[i]?).map (·.linked)).getD false

theorem linkedAt_eq_true {t : UniqueTable α} {i : Nat}
    : t.linkedAt i = true ↔ ∃ c, t.cells[i]? = some c ∧ c.linked = true := by
  unfold linkedAt
  cases t.cells[i]? <;> simp

-----------------------------------------------------------------------------------------
-- Chains
-----------------------------------------------------------------------------------------

namespace Chain

variable {t t' : UniqueTable α}

/-- A chain visits no sentinel, since 0 ends it. -/
theorem ne_zero {i j : Nat} {l : List Nat} (chain : t.Chain i l) (member : j ∈ l) : j ≠ 0 := by
  induction chain with
  | nil => simp at member
  | cons start _ _ ih =>
      rcases List.mem_cons.mp member with same | later
      · exact same ▸ start
      · exact ih later

/-- A chain visits only cells of the table. -/
theorem lt_size {i j : Nat} {l : List Nat} (chain : t.Chain i l) (member : j ∈ l)
    : j < t.cells.size := by
  induction chain with
  | nil => simp at member
  | @cons k c _ _ found _ ih =>
      rcases List.mem_cons.mp member with same | later
      · subst same
        exact (Array.getElem?_eq_some_iff.mp found).1
      · exact ih later

/-- The next-pointers decide the chain. -/
theorem unique {i : Nat} {l l' : List Nat} (chain : t.Chain i l) (other : t.Chain i l')
    : l = l' := by
  induction chain generalizing l' with
  | nil =>
      cases other with
      | nil => rfl
      | cons start _ _ => exact absurd rfl start
  | cons start found _ ih =>
      cases other with
      | nil => exact absurd rfl start
      | cons _ found' rest' =>
          rw [found] at found'
          cases found'
          rw [ih rest']

/-- A chain stays when the cells it visits keep their next-pointers. -/
theorem congr {i : Nat} {l : List Nat} (chain : t.Chain i l)
    (kept : ∀ j ∈ l, (t'.cells[j]?).map (·.next) = (t.cells[j]?).map (·.next))
    : t'.Chain i l := by
  induction chain with
  | nil => exact .nil
  | @cons k c l start found _ ih =>
      have same := kept k (by simp)
      rw [found] at same
      obtain ⟨c', found', next⟩ := Option.map_eq_some_iff.mp same
      refine .cons (c := c') start found' ?_
      rw [next]
      exact ih fun j member => kept j (List.mem_cons_of_mem k member)

/-- A duplicate-free chain is no longer than the table. -/
theorem length_le {i : Nat} {l : List Nat} (chain : t.Chain i l) (distinct : l.Nodup)
    : l.length ≤ t.cells.size := by
  have within : l ⊆ List.range t.cells.size := fun j member =>
    List.mem_range.mpr (chain.lt_size member)
  simpa using distinct.length_le_of_subset within

/-- Every member of a chain is followed by the chain from its next-pointer. -/
theorem suffix {s j : Nat} {l : List Nat} (chain : t.Chain s l) (member : j ∈ l)
    : ∃ pre r, l = pre ++ j :: r ∧ t.Chain (t.nextOf j) r := by
  induction chain with
  | nil => simp at member
  | @cons k c l start found rest ih =>
      rcases List.mem_cons.mp member with same | later
      · subst same
        refine ⟨[], l, rfl, ?_⟩
        simpa [nextOf, found] using rest
      · obtain ⟨pre, r, split, tail⟩ := ih later
        exact ⟨k :: pre, r, by simp [split], tail⟩

/-- A chain from the sentinel is empty. -/
theorem eq_nil_of_zero {l : List Nat} (chain : t.Chain 0 l) : l = [] := by
  cases chain with
  | nil => rfl
  | cons start _ _ => exact absurd rfl start

/-- No member of a duplicate-free chain points to itself. -/
theorem nextOf_ne_self {s j : Nat} {l : List Nat} (chain : t.Chain s l) (distinct : l.Nodup)
    (member : j ∈ l)
    : t.nextOf j ≠ j := by
  intro loop
  obtain ⟨pre, r, split, tail⟩ := chain.suffix member
  rw [loop] at tail
  have again : j ∈ r := by
    cases tail with
    | nil => exact absurd rfl (chain.ne_zero member)
    | cons _ _ _ => simp
  rw [split] at distinct
  exact (List.nodup_cons.mp (List.nodup_append.mp distinct).2.1).1 again

/-- No member of a chain points back to its start. -/
theorem nextOf_ne_start {s j : Nat} {l : List Nat} (chain : t.Chain s l) (member : j ∈ l)
    : t.nextOf j ≠ s := by
  intro back
  obtain ⟨pre, r, split, tail⟩ := chain.suffix member
  rw [back] at tail
  have same := chain.unique tail
  have := congrArg List.length split
  rw [← same] at this
  simp at this
  omega

/-- Two members of a chain with one nonzero successor are the same. -/
theorem eq_of_nextOf_eq {s j k : Nat} {l : List Nat} (chain : t.Chain s l) (memberJ : j ∈ l)
    (memberK : k ∈ l) (same : t.nextOf j = t.nextOf k)
    : j = k := by
  obtain ⟨preJ, r, splitJ, tailJ⟩ := chain.suffix memberJ
  obtain ⟨preK, r', splitK, tailK⟩ := chain.suffix memberK
  rw [same] at tailJ
  have := tailJ.unique tailK
  subst this
  rw [splitJ] at splitK
  have joined : (preJ ++ [j]) ++ r = (preK ++ [k]) ++ r := by simpa using splitK
  have := List.append_cancel_right joined
  simp at this
  exact this.2

/-- A member taken out of a chain, by pointing its predecessor (or the start) past it, leaves the
chain of the other members. -/
theorem erase {s i : Nat} {l : List Nat} {c : Cell α} (chain : t.Chain s l) (distinct : l.Nodup)
    (member : i ∈ l) (found : t.cells[i]? = some c)
    (bypassed : ∀ j ∈ l, j ≠ i → (t'.cells[j]?).map (·.next) =
      (t.cells[j]?).map fun d => if d.next = i then c.next else d.next)
    : t'.Chain (if s = i then c.next else s) (l.erase i) := by
  induction chain with
  | nil => simp at member
  | @cons k ck l start foundK rest ih =>
      obtain ⟨notHere, restDistinct⟩ := List.nodup_cons.mp distinct
      by_cases same : k = i
      · subst same
        rw [found] at foundK
        cases foundK
        simp only [if_true, List.erase_cons_head]
        -- no later member points back to the removed start
        refine rest.congr fun j later => ?_
        have other : j ≠ k := fun back => notHere (back ▸ later)
        rw [bypassed j (List.mem_cons_of_mem k later) other]
        have notBack := (Chain.cons start found rest).nextOf_ne_start (List.mem_cons_of_mem k later)
        cases cellJ : t.cells[j]? with
        | none => rfl
        | some d =>
            have : d.next ≠ k := by simpa [nextOf, cellJ] using notBack
            simp [this]
      · have later : i ∈ l := by simpa [Ne.symm same] using member
        simp only [same, if_false, List.erase_cons_tail (show ¬(k == i) by simpa using same)]
        have kept := bypassed k (by simp) same
        rw [foundK, Option.map_some] at kept
        obtain ⟨ck', foundK', next⟩ := Option.map_eq_some_iff.mp kept
        refine .cons start foundK' ?_
        rw [next]
        exact ih restDistinct later fun j member other =>
          bypassed j (List.mem_cons_of_mem k member) other

end Chain

-----------------------------------------------------------------------------------------
-- Looking a value up along a chain
-----------------------------------------------------------------------------------------

section Lookup

variable [BEq α]

/-- A walk that returns stops at a cell equal to the value, on the chain it walks. -/
theorem findFrom_eq_some {t : UniqueTable α} {v : α} {fuel i j : Nat}
    (found : t.findFrom v fuel i = some j)
    : ∃ c, t.cells[j]? = some c ∧ (c.value == v) = true ∧
        ∀ l, t.Chain i l → j ∈ l := by
  induction fuel generalizing i with
  | zero => simp [findFrom] at found
  | succ fuel ih =>
      unfold findFrom at found
      by_cases zero : i = 0
      · simp [zero] at found
      · simp only [beq_iff_eq, zero, if_false] at found
        cases cell : t.cells[i]? with
        | none => simp [cell] at found
        | some c =>
            simp only [cell] at found
            by_cases equal : (c.value == v) = true
            · simp only [equal, if_true, Option.some.injEq] at found
              subst found
              refine ⟨c, cell, equal, fun l chain => ?_⟩
              cases chain with
              | nil => exact absurd rfl zero
              | cons _ _ _ => simp
            · simp only [equal] at found
              obtain ⟨c', found', equal', onChain⟩ := ih found
              refine ⟨c', found', equal', fun l chain => ?_⟩
              cases chain with
              | nil => exact absurd rfl zero
              | cons _ found'' rest =>
                  rw [cell] at found''
                  cases found''
                  exact List.mem_cons_of_mem _ (onChain _ rest)

/-- A walk with fuel for the whole chain finds a cell equal to the value when the chain has
one. -/
theorem findFrom_isSome {t : UniqueTable α} {v : α} {fuel i : Nat} {l : List Nat}
    (chain : t.Chain i l) (enough : l.length < fuel)
    (present : ∃ j ∈ l, ∃ c, t.cells[j]? = some c ∧ (c.value == v) = true)
    : (t.findFrom v fuel i).isSome := by
  induction chain generalizing fuel with
  | nil => simp at present
  | @cons k c l start found rest ih =>
      obtain ⟨fuel, rfl⟩ : ∃ f, fuel = f + 1 := ⟨fuel - 1, by simp at enough; omega⟩
      unfold findFrom
      simp only [beq_iff_eq, start, if_false, found]
      by_cases equal : (c.value == v) = true
      · simp [equal]
      · simp only [equal]
        apply ih (by simpa using enough)
        obtain ⟨j, member, c', found', equal'⟩ := present
        rcases List.mem_cons.mp member with same | later
        · subst same
          rw [found] at found'
          cases found'
          exact absurd equal' equal
        · exact ⟨j, later, c', found', equal'⟩

end Lookup

-----------------------------------------------------------------------------------------
-- The cell before a cell
-----------------------------------------------------------------------------------------

/-- A walk for the cell before `i` that returns stops at a member of the chain pointing at
`i`. -/
theorem prevOf_eq_ok {t : UniqueTable α} {i fuel s p : Nat} {l : List Nat}
    (chain : t.Chain s l) (start : s ≠ 0) (found : t.prevOf i fuel s = .ok p)
    : p ∈ l ∧ t.nextOf p = i := by
  induction fuel generalizing s l with
  | zero => simp [prevOf] at found
  | succ fuel ih =>
      cases chain with
      | nil => exact absurd rfl start
      | @cons _ c l _ cell rest =>
          have next : t.nextOf s = c.next := by simp [nextOf, cell]
          unfold prevOf at found
          by_cases here : t.nextOf s = i
          · simp only [here, BEq.rfl, if_true, Except.ok.injEq] at found
            subst found
            exact ⟨by simp, here⟩
          · by_cases last : t.nextOf s = 0
            · rw [last] at here
              simp [last, here] at found
            · simp only [beq_iff_eq, here, last, if_false] at found
              rw [next] at found last
              obtain ⟨member, pointing⟩ := ih rest last found
              exact ⟨List.mem_cons_of_mem s member, pointing⟩

-----------------------------------------------------------------------------------------
-- The chain invariant
-----------------------------------------------------------------------------------------

section Indexed

variable [BucketHash α]

/-- Cell `i` is linked and its value falls into bucket `b`. -/
def LinkedIn (t : UniqueTable α) (b i : Nat) : Prop :=
  ∃ c, t.cells[i]? = some c ∧ c.linked = true ∧ t.bucketOf c.value = b

/-- The chain of every bucket holds exactly the cells linked into that bucket, each once, and
cell 0 is never linked. -/
structure Indexed (t : UniqueTable α) : Prop where
  chains : ∀ b < t.bucketCount,
    ∃ l, t.Chain (t.head b) l ∧ l.Nodup ∧ ∀ i, i ∈ l ↔ t.LinkedIn b i
  sentinel : t.linkedAt 0 = false

/-- Every value falls into one of the buckets. -/
theorem bucketOf_lt (t : UniqueTable α) (v : α) : t.bucketOf v < t.bucketCount :=
  Nat.mod_lt _ (Nat.two_pow_pos _)

variable [BEq α] [LawfulBEq α]

/-- A look-up returns a linked cell holding the value. -/
theorem Indexed.find_eq_some {t : UniqueTable α} {v : α} {i : Nat} (indexed : t.Indexed)
    (found : t.find v = some i)
    : ∃ c, t.cells[i]? = some c ∧ c.linked = true ∧ c.value = v := by
  obtain ⟨c, cell, equal, onChain⟩ := findFrom_eq_some found
  obtain ⟨l, chain, _, members⟩ := indexed.chains _ (bucketOf_lt t v)
  obtain ⟨c', cell', linked, _⟩ := (members i).mp (onChain l chain)
  rw [cell] at cell'
  cases cell'
  exact ⟨c, cell, linked, beq_iff_eq.mp equal⟩

/-- A look-up that returns nothing misses no linked cell holding the value. -/
theorem Indexed.find_eq_none {t : UniqueTable α} {v : α} (indexed : t.Indexed)
    (missing : t.find v = none) {i : Nat} {c : Cell α} (cell : t.cells[i]? = some c)
    (linked : c.linked = true)
    : c.value ≠ v := by
  intro equal
  obtain ⟨l, chain, distinct, members⟩ := indexed.chains _ (bucketOf_lt t v)
  have inBucket : t.LinkedIn (t.bucketOf v) i := ⟨c, cell, linked, by rw [equal]⟩
  have member : i ∈ l := (members i).mpr inBucket
  have located := findFrom_isSome (v := v) chain (Nat.lt_succ_of_le (chain.length_le distinct))
    ⟨i, member, c, cell, by simp [equal]⟩
  unfold find at missing
  rw [missing] at located
  simp at located

/-- A look-up finds a linked cell holding the value exactly when there is one. -/
theorem Indexed.find_isSome_iff {t : UniqueTable α} {v : α} (indexed : t.Indexed)
    : (t.find v).isSome ↔
        ∃ i : Nat, ∃ c : Cell α, t.cells[i]? = some c ∧ c.linked = true ∧ c.value = v := by
  constructor
  · intro some
    obtain ⟨i, found⟩ := Option.isSome_iff_exists.mp some
    exact ⟨i, indexed.find_eq_some found⟩
  · rintro ⟨i, c, cell, linked, equal⟩
    cases found : t.find v with
    | some _ => rfl
    | none => exact absurd equal (indexed.find_eq_none found cell linked)

end Indexed

end UniqueTable

end MajorityGraph
