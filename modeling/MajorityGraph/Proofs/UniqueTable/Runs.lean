import MajorityGraph.Proofs.UniqueTable.Links

/-!
Every run of unique-table operations from a fresh table keeps its chains, and its look-ups
answer as documented (`run_keeps_hash_chains`).
-/

namespace MajorityGraph

namespace UniqueTable

variable {α : Type}

/-- An operation on a unique table, as a client issues it. -/
inductive Op (α : Type) where
  | add (v : α)
  | put (v : α)
  | find (v : α)
  | link (i : Nat)
  | unlink (i : Nat)
  | isLinked (i : Nat)
  | next (i : Nat)
  | value (i : Nat)

section Run

variable [BucketHash α] [BEq α]

/-- The table after one operation: the queries leave it as it is, and a fault stops. -/
def step (t : UniqueTable α) : Op α → Except Fault (UniqueTable α)
  | .add v => .ok (t.add v).2
  | .put v => (·.2) <$> t.put v
  | .find _ => .ok t
  | .link i => t.link i
  | .unlink i => t.unlink i
  | .isLinked i => (fun _ => t) <$> t.isLinked i
  | .next i => (fun _ => t) <$> t.next i
  | .value i => (fun _ => t) <$> t.value i

/-- The table after a sequence of operations, or the first fault. -/
def run (t : UniqueTable α) (ops : List (Op α)) : Except Fault (UniqueTable α) :=
  ops.foldlM step t

end Run

/-- The number of linked cells. -/
def linkedCells (t : UniqueTable α) : Nat := (List.range t.cells.size).countP (t.linkedAt ·)

-----------------------------------------------------------------------------------------
-- What linking and unlinking do to a table
-----------------------------------------------------------------------------------------

section Effects

@[simp] theorem linkedCount_setNext (t : UniqueTable α) (i n : Nat) :
    (t.setNext i n).linkedCount = t.linkedCount := rfl

@[simp] theorem linkedCount_setHead (t : UniqueTable α) (b i : Nat) :
    (t.setHead b i).linkedCount = t.linkedCount := rfl

@[simp] theorem linkedCount_setLinked (t : UniqueTable α) (i : Nat) (linked : Bool) (n : Nat) :
    (t.setLinked i linked n).linkedCount =
      if linked then t.linkedCount + 1 else t.linkedCount - 1 := rfl

@[simp] theorem nextOf_setHead (t : UniqueTable α) (b i j : Nat) :
    (t.setHead b i).nextOf j = t.nextOf j := rfl

theorem nextOf_setNext_of_ne (t : UniqueTable α) {i j : Nat} (n : Nat) (other : j ≠ i) :
    (t.setNext i n).nextOf j = t.nextOf j := by
  simp [nextOf, Array.getElem?_modify, Ne.symm other]

theorem nextOf_setLinked_of_ne (t : UniqueTable α) {i j : Nat} (linked : Bool) (n : Nat)
    (other : j ≠ i) : (t.setLinked i linked n).nextOf j = t.nextOf j := by
  simp [nextOf, Array.getElem?_modify, Ne.symm other]

theorem nextOf_setLinked_self (t : UniqueTable α) (i : Nat) (linked : Bool) (n : Nat) :
    (t.setLinked i linked n).nextOf i = if i < t.cells.size then n else 0 := by
  simp only [nextOf, cells_setLinked, Array.getElem?_modify, if_true]
  cases cell : t.cells[i]? with
  | none => simp [Nat.not_lt.mpr (Array.getElem?_eq_none_iff.mp cell)]
  | some c => simp [(Array.getElem?_eq_some_iff.mp cell).1]

/-- A query that returns leaves the table. -/
theorem eq_of_query {β : Type} {t t' : UniqueTable α} {x : Except Fault β}
    (query : (fun _ => t) <$> x = .ok t') : t' = t := by
  cases x <;> simp [Functor.map, Except.map] at query
  exact query.symm

/-- The walk for the cell before a member of a chain, started ahead of it with fuel for the
whole chain, finds that cell. -/
theorem prevOf_isOk {t : UniqueTable α} {i fuel s : Nat} {l : List Nat} (chain : t.Chain s l)
    (member : i ∈ l) (notFirst : s ≠ i) (enough : l.length ≤ fuel) :
    ∃ p, t.prevOf i fuel s = .ok p := by
  induction chain generalizing fuel with
  | nil => simp at member
  | @cons k c l start found rest ih =>
    obtain ⟨fuel, rfl⟩ : ∃ f, fuel = f + 1 := ⟨fuel - 1, by simp at enough; omega⟩
    have later : i ∈ l := by
      rcases List.mem_cons.mp member with same | later
      · exact absurd same.symm notFirst
      · exact later
    have next : t.nextOf k = c.next := by simp [nextOf, found]
    unfold prevOf
    by_cases here : c.next = i
    · simp [next, here]
    · -- the chain goes on past `k`, so its next cell is not the end
      have nonzero : c.next ≠ 0 := fun zero => by
        rw [zero] at rest
        rw [rest.eq_nil_of_zero] at later
        simp at later
      simp only [next, beq_iff_eq, here, nonzero, if_false]
      exact ih later here (by simp at enough; omega)

variable [BucketHash α]

@[simp] theorem linkedCount_chainIn (t : UniqueTable α) (i : Nat) :
    (t.chainIn i).linkedCount = t.linkedCount := by
  unfold chainIn
  split <;> rfl

theorem nextOf_chainIn_of_ne (t : UniqueTable α) {i j : Nat} (other : j ≠ i) :
    (t.chainIn i).nextOf j = t.nextOf j := by
  unfold chainIn
  split
  · rw [nextOf_setHead, nextOf_setNext_of_ne _ _ other]
  · rfl

/-- The fold of `grow` keeps the linked count, and the next-pointer of every cell that is not
linked. -/
theorem foldl_chainIn_unlinked (xs : List Nat) (acc : UniqueTable α) :
    let r := xs.foldl (fun acc i =>
      if ((acc.cells[i]?).map (·.linked)).getD false then acc.chainIn i else acc) acc
    r.linkedCount = acc.linkedCount ∧
      ∀ j, acc.linkedAt j = false → r.nextOf j = acc.nextOf j := by
  induction xs generalizing acc with
  | nil => exact ⟨rfl, fun _ _ => rfl⟩
  | cons x rest ih =>
    simp only [List.foldl_cons]
    split
    · rename_i linked
      obtain ⟨count, nexts⟩ := ih (acc.chainIn x)
      refine ⟨by rw [count, linkedCount_chainIn], fun j unlinked => ?_⟩
      have other : j ≠ x := by
        rintro rfl
        exact absurd linked (by simpa [linkedAt] using unlinked)
      rw [nexts j (by rw [linkedAt_chainIn]; exact unlinked), nextOf_chainIn_of_ne _ other]
    · exact ih acc

@[simp] theorem linkedCount_grow (t : UniqueTable α) : t.grow.linkedCount = t.linkedCount := by
  obtain ⟨cells, heads, bits, count⟩ := t
  exact (foldl_chainIn_unlinked _ _).1

theorem nextOf_grow_of_unlinked (t : UniqueTable α) {j : Nat} (unlinked : t.linkedAt j = false) :
    t.grow.nextOf j = t.nextOf j := by
  obtain ⟨cells, heads, bits, count⟩ := t
  exact (foldl_chainIn_unlinked _ _).2 j unlinked

/-- A link succeeds on a cell that the table has, that is not the sentinel and is not linked:
it grows the buckets first when the link would make the linked cells more than twice them, and
puts the cell in front of its chain. -/
theorem link_eq_ok {t t' : UniqueTable α} {i : Nat} :
    t.link i = .ok t' ↔ i ≠ 0 ∧ ∃ c, t.cells[i]? = some c ∧ c.linked = false ∧
      ∃ t₁, t₁ = (if t.linkedCount + 1 > 2 * t.bucketCount then t.grow else t) ∧
        t' = (t₁.chainIn i).setLinked i true ((t₁.chainIn i).nextOf i) := by
  unfold UniqueTable.link
  by_cases zero : i = 0
  · simp [zero, bind, Except.bind]
  cases cellEq : t.cells[i]? with
  | none => simp [zero, cell, cellEq, bind, Except.bind]
  | some c =>
    cases on : c.linked with
    | true => simp [zero, cell, cellEq, on, bind, Except.bind]
    | false =>
      simp [zero, cell, cellEq, on, bind, Except.bind, pure, Except.pure]
      exact eq_comm

/-- An unlink succeeds on every cell but the sentinel that the table has. An unlinked cell is
left as it is; a linked cell is taken out of its chain, by pointing its bucket at the cell's
successor when it is first, and otherwise its predecessor, found by a walk from the head. -/
theorem unlink_eq_ok {t t' : UniqueTable α} {i : Nat} :
    t.unlink i = .ok t' ↔ i ≠ 0 ∧ ∃ c, t.cells[i]? = some c ∧
      ((c.linked = false ∧ t' = t) ∨
        (c.linked = true ∧
          ((t.head (t.bucketOf c.value) = i ∧
              t' = (t.setHead (t.bucketOf c.value) c.next).setLinked i false 0) ∨
            (t.head (t.bucketOf c.value) ≠ i ∧
              ∃ p, t.prevOf i (t.cells.size + 1) (t.head (t.bucketOf c.value)) = .ok p ∧
                t' = (t.setNext p c.next).setLinked i false 0)))) := by
  unfold UniqueTable.unlink
  by_cases zero : i = 0
  · simp [zero, bind, Except.bind]
  cases cellEq : t.cells[i]? with
  | none => simp [zero, cell, cellEq, bind, Except.bind]
  | some c =>
    cases on : c.linked with
    | false =>
      simp [zero, cell, cellEq, on, bind, Except.bind, pure, Except.pure]
      exact eq_comm
    | true =>
      by_cases first : t.head (t.bucketOf c.value) = i
      · simp [zero, cell, cellEq, on, first, bind, Except.bind, pure, Except.pure]
        exact eq_comm
      · cases walk : t.prevOf i (t.cells.size + 1) (t.head (t.bucketOf c.value)) with
        | error e => simp [zero, cell, cellEq, on, first, walk, bind, Except.bind]
        | ok p =>
          simp [zero, cell, cellEq, on, first, walk, bind, Except.bind, pure, Except.pure]
          exact eq_comm

end Effects

-----------------------------------------------------------------------------------------
-- Counting linked cells
-----------------------------------------------------------------------------------------

section Counting

/-- Marking one more index counts one more. -/
theorem countP_range_mark {n i : Nat} {p q : Nat → Bool} (lt : i < n) (unmarked : p i = false)
    (marked : ∀ j, q j = (j == i || p j)) :
    (List.range n).countP q = (List.range n).countP p + 1 := by
  induction n with
  | zero => omega
  | succ n ih =>
    simp only [List.range_succ, List.countP_append, List.countP_singleton]
    rcases Nat.lt_succ_iff_lt_or_eq.mp lt with earlier | rfl
    · have last : q n = p n := by simp [marked, Nat.ne_of_gt earlier]
      rw [ih earlier, last]
      omega
    · have below : (List.range i).countP q = (List.range i).countP p :=
        List.countP_congr fun j member => by
          simp [marked, Nat.ne_of_lt (List.mem_range.mp member)]
      simp [below, marked, unmarked]

/-- A new unlinked cell leaves the count. -/
theorem linkedCells_add (t : UniqueTable α) (v : α) : (t.add v).2.linkedCells = t.linkedCells := by
  unfold linkedCells
  rw [cells_add, Array.size_push, List.range_succ, List.countP_append]
  have below : (List.range t.cells.size).countP ((t.add v).2.linkedAt ·) =
      (List.range t.cells.size).countP (t.linkedAt ·) :=
    List.countP_congr fun j member => by
      simp [linkedAt_add, Nat.ne_of_lt (List.mem_range.mp member)]
  rw [below]
  simp [linkedAt_add]

/-- Linking a cell that was not linked counts one more. -/
theorem linkedCells_of_marked {t t' : UniqueTable α} {i : Nat} (size : t'.cells.size = t.cells.size)
    (lt : i < t.cells.size) (unlinked : t.linkedAt i = false)
    (links : ∀ j, t'.linkedAt j = (j == i || t.linkedAt j)) :
    t'.linkedCells = t.linkedCells + 1 := by
  unfold linkedCells
  rw [size]
  exact countP_range_mark lt unlinked links

/-- Unlinking a linked cell counts one less. -/
theorem linkedCells_of_unmarked {t t' : UniqueTable α} {i : Nat}
    (size : t'.cells.size = t.cells.size) (lt : i < t.cells.size) (linked : t.linkedAt i = true)
    (links : ∀ j, t'.linkedAt j = (j != i && t.linkedAt j)) :
    t'.linkedCells + 1 = t.linkedCells := by
  unfold linkedCells
  rw [size]
  refine (countP_range_mark lt (by simp [links]) fun j => ?_).symm
  by_cases same : j = i
  · simp [same, linked]
  · have different : (j == i) = false := by simpa using same
    simp [links, different, same]

end Counting

-----------------------------------------------------------------------------------------
-- The invariant of every run
-----------------------------------------------------------------------------------------

section Invariant

variable [BucketHash α]

/-- What every run of operations from a fresh table with `2 ^ bits` buckets keeps. -/
structure Invariant (bits : Nat) (t : UniqueTable α) : Prop where
  /-- The chain of every bucket holds exactly its linked cells, each once, and ends at 0; cell 0
  is never linked. -/
  indexed : t.Indexed
  /-- The buckets never fall below the start. -/
  grown : bits ≤ t.bits
  /-- A cell outside the chains points nowhere. -/
  unlinkedNext : ∀ i, t.linkedAt i = false → t.nextOf i = 0
  /-- The linked count is the number of linked cells, and at most twice the buckets. -/
  count : t.linkedCount = t.linkedCells
  load : t.linkedCount ≤ 2 * t.bucketCount

variable {bits : Nat}

theorem bucketCount_grow (t : UniqueTable α) : t.grow.bucketCount = 2 * t.bucketCount := by
  simp [bucketCount, Nat.pow_succ, Nat.mul_comm]

theorem Invariant.new {t : UniqueTable α} (fresh : UniqueTable.new bits = .ok t) :
    t.Invariant bits := by
  unfold UniqueTable.new at fresh
  split at fresh
  · cases fresh
    exact ⟨Indexed.empty bits, Nat.le_refl _, fun _ _ => rfl, rfl, Nat.zero_le _⟩
  · cases fresh

theorem Invariant.add {t : UniqueTable α} (inv : t.Invariant bits) (v : α) :
    (t.add v).2.Invariant bits := by
  refine ⟨inv.indexed.add v, inv.grown, fun j unlinked => ?_, ?_, inv.load⟩
  · by_cases last : j = t.cells.size
    · subst last
      simp [nextOf]
    · have before : t.linkedAt j = false := by simpa [linkedAt_add, last] using unlinked
      have kept : (t.add v).2.nextOf j = t.nextOf j := by
        simp [nextOf, Array.getElem?_push, last]
      rw [kept, inv.unlinkedNext j before]
  · rw [linkedCells_add]
    exact inv.count

theorem Invariant.link {t t' : UniqueTable α} {i : Nat} (inv : t.Invariant bits)
    (linked : t.link i = .ok t') : t'.Invariant bits := by
  obtain ⟨indexed', size', -, links'⟩ := inv.indexed.link linked
  obtain ⟨-, c, cell, unlinked, t₁, grown, rfl⟩ := link_eq_ok.mp linked
  have lt : i < t.cells.size := (Array.getElem?_eq_some_iff.mp cell).1
  have wasUnlinked : t.linkedAt i = false := by simp [linkedAt, cell, unlinked]
  -- the optional growth keeps the count and the pointers of unlinked cells, and makes room
  have facts : t.bits ≤ t₁.bits ∧ t₁.linkedCount = t.linkedCount ∧
      (∀ j, t.linkedAt j = false → t₁.nextOf j = t.nextOf j) ∧
      t.linkedCount + 1 ≤ 2 * t₁.bucketCount := by
    subst grown
    split
    · have room : 1 ≤ t.bucketCount := Nat.one_le_two_pow
      refine ⟨by simp, by simp, fun j => nextOf_grow_of_unlinked t, ?_⟩
      rw [bucketCount_grow]
      have := inv.load
      omega
    · rename_i fits
      exact ⟨Nat.le_refl _, rfl, fun _ _ => rfl, by omega⟩
  obtain ⟨bits₁, count₁, next₁, room₁⟩ := facts
  refine ⟨indexed', by simp only [bits_setLinked, bits_chainIn]; exact Nat.le_trans inv.grown bits₁,
    fun j unlinked' => ?_, ?_, ?_⟩
  · have other : j ≠ i ∧ t.linkedAt j = false := by simpa [links'] using unlinked'
    rw [nextOf_setLinked_of_ne _ _ _ other.1, nextOf_chainIn_of_ne _ other.1, next₁ j other.2,
      inv.unlinkedNext j other.2]
  · rw [linkedCount_setLinked, linkedCount_chainIn, count₁, inv.count,
      linkedCells_of_marked size' lt wasUnlinked links']
    rfl
  · simp only [linkedCount_setLinked, linkedCount_chainIn, if_true, count₁]
    simpa [bucketCount] using room₁

/-- The cell before a linked cell, found by the walk of an unlink, is linked. -/
theorem Indexed.prevOf_linked {t : UniqueTable α} (indexed : t.Indexed) {i p : Nat} {c : Cell α}
    (cell : t.cells[i]? = some c) (on : c.linked = true)
    (walk : t.prevOf i (t.cells.size + 1) (t.head (t.bucketOf c.value)) = .ok p) :
    t.linkedAt p = true := by
  obtain ⟨l, chain, -, members⟩ := indexed.chains _ (bucketOf_lt t c.value)
  have member : i ∈ l := (members i).mpr ⟨c, cell, on, rfl⟩
  have start : t.head (t.bucketOf c.value) ≠ 0 := fun empty => by
    rw [empty] at chain
    rw [chain.eq_nil_of_zero] at member
    simp at member
  obtain ⟨before, -⟩ := prevOf_eq_ok chain start walk
  exact linkedIn_iff.mp ⟨_, (members p).mp before⟩

theorem Invariant.unlink {t t' : UniqueTable α} {i : Nat} (inv : t.Invariant bits)
    (unlinked : t.unlink i = .ok t') : t'.Invariant bits := by
  obtain ⟨indexed', size', -, links'⟩ := inv.indexed.unlink unlinked
  obtain ⟨-, c, cell, outcome⟩ := unlink_eq_ok.mp unlinked
  rcases outcome with ⟨-, rfl⟩ | ⟨on, outcome⟩
  · exact inv
  have lt : i < t.cells.size := (Array.getElem?_eq_some_iff.mp cell).1
  have wasLinked : t.linkedAt i = true := by simp [linkedAt, cell, on]
  -- either way the cell is marked unlinked in a table that only moved one pointer past it
  obtain ⟨t₂, rfl, bits₂, count₂, next₂⟩ : ∃ t₂ : UniqueTable α, t' = t₂.setLinked i false 0 ∧
      t₂.bits = t.bits ∧ t₂.linkedCount = t.linkedCount ∧
      ∀ j, t.linkedAt j = false → t₂.nextOf j = t.nextOf j := by
    rcases outcome with ⟨-, rfl⟩ | ⟨-, p, walk, rfl⟩
    · exact ⟨_, rfl, rfl, rfl, fun j _ => nextOf_setHead _ _ _ j⟩
    · have linkedP := inv.indexed.prevOf_linked cell on walk
      refine ⟨_, rfl, rfl, rfl, fun j unlinkedJ => nextOf_setNext_of_ne _ _ ?_⟩
      rintro rfl
      rw [linkedP] at unlinkedJ
      cases unlinkedJ
  have fewer := linkedCells_of_unmarked size' lt wasLinked links'
  refine ⟨indexed', by simp only [bits_setLinked, bits₂]; exact inv.grown, fun j unlinked' => ?_,
    ?_, ?_⟩
  · by_cases same : j = i
    · subst same
      rw [nextOf_setLinked_self]
      split <;> rfl
    · have before : t.linkedAt j = false := by simpa [links', same] using unlinked'
      rw [nextOf_setLinked_of_ne _ _ _ same, next₂ j before, inv.unlinkedNext j before]
  · simp only [linkedCount_setLinked, Bool.false_eq_true, if_false, count₂, inv.count]
    omega
  · simp only [linkedCount_setLinked, Bool.false_eq_true, if_false, count₂, bucketCount,
      bits_setLinked, bits₂]
    have := inv.load
    simp only [bucketCount] at this
    omega

section Putting

variable [BEq α]

/-- A put returns the cell that a look-up finds, and otherwise adds the value as a new last cell
and links it. -/
theorem put_eq_ok {t t' : UniqueTable α} {v : α} {i : Nat} {created : Bool} :
    t.put v = .ok ((i, created), t') ↔
      (t.find v = some i ∧ created = false ∧ t' = t) ∨
        (t.find v = none ∧ created = true ∧ i = t.cells.size ∧
          (t.add v).2.link t.cells.size = .ok t') := by
  unfold UniqueTable.put
  cases look : t.find v with
  | some k =>
    simp only [Except.ok.injEq, Prod.mk.injEq, Option.some.injEq, reduceCtorEq, false_and,
      or_false]
    constructor
    · rintro ⟨⟨rfl, rfl⟩, rfl⟩
      exact ⟨rfl, rfl, rfl⟩
    · rintro ⟨rfl, rfl, rfl⟩
      exact ⟨⟨rfl, rfl⟩, rfl⟩
  | none =>
    cases linked : (t.add v).2.link t.cells.size with
    | error e => simp [linked, Functor.map, Except.map]
    | ok t₂ =>
      simp only [linked, Functor.map, Except.map, add_fst, Except.ok.injEq, Prod.mk.injEq,
        reduceCtorEq, false_and, true_and, false_or]
      constructor
      · rintro ⟨⟨rfl, rfl⟩, rfl⟩
        exact ⟨rfl, rfl, rfl⟩
      · rintro ⟨rfl, rfl, rfl⟩
        exact ⟨⟨rfl, rfl⟩, rfl⟩

theorem Invariant.put {t t' : UniqueTable α} {v : α} {r : Nat × Bool} (inv : t.Invariant bits)
    (put : t.put v = .ok (r, t')) : t'.Invariant bits := by
  rcases put_eq_ok.mp put with ⟨-, -, rfl⟩ | ⟨-, -, -, linked⟩
  · exact inv
  · exact (inv.add v).link linked

/-- One operation keeps the invariant. -/
theorem Invariant.step {t t' : UniqueTable α} (inv : t.Invariant bits) {op : Op α}
    (stepped : t.step op = .ok t') : t'.Invariant bits := by
  cases op with
  | add v =>
    cases stepped
    exact inv.add v
  | put v =>
    obtain ⟨r, put⟩ : ∃ r, t.put v = .ok (r, t') := by
      unfold UniqueTable.step at stepped
      cases put : t.put v with
      | error e => simp [put, Functor.map, Except.map] at stepped
      | ok r =>
        simp only [put, Functor.map, Except.map, Except.ok.injEq] at stepped
        exact ⟨r.1, by rw [← stepped]⟩
    exact inv.put put
  | find v =>
    cases stepped
    exact inv
  | link i => exact inv.link stepped
  | unlink i => exact inv.unlink stepped
  | isLinked i => exact eq_of_query stepped ▸ inv
  | next i => exact eq_of_query stepped ▸ inv
  | value i => exact eq_of_query stepped ▸ inv

/-- Every run keeps the invariant. -/
theorem Invariant.run {t t' : UniqueTable α} (inv : t.Invariant bits) {ops : List (Op α)}
    (ran : t.run ops = .ok t') : t'.Invariant bits := by
  induction ops generalizing t with
  | nil =>
    cases ran
    exact inv
  | cons op rest ih =>
    unfold UniqueTable.run at ran
    rw [List.foldlM_cons] at ran
    cases stepped : t.step op with
    | error e => simp [stepped, bind, Except.bind] at ran
    | ok t₁ =>
      simp only [stepped, bind, Except.bind] at ran
      exact ih (inv.step stepped) ran

end Putting

end Invariant

-----------------------------------------------------------------------------------------
-- What a table with exact chains answers
-----------------------------------------------------------------------------------------

section Answers

variable [BucketHash α]

/-- The bucket of a value is its hash masked by one less than the bucket count. -/
theorem bucketOf_eq_and (t : UniqueTable α) (v : α) :
    t.bucketOf v = (BucketHash.bucketHash v).toNat &&& (t.bucketCount - 1) := by
  rw [bucketCount, Nat.and_two_pow_sub_one_eq_mod]
  rfl

/-- An unlink succeeds on every cell but the sentinel: the walk for the cell before it never
runs off its chain. -/
theorem Indexed.unlink_isOk {t : UniqueTable α} (indexed : t.Indexed) {i : Nat} (nonzero : i ≠ 0)
    (lt : i < t.cells.size) : ∃ t', t.unlink i = .ok t' := by
  obtain ⟨c, cell⟩ : ∃ c, t.cells[i]? = some c := ⟨_, Array.getElem?_eq_getElem lt⟩
  cases on : c.linked with
  | false => exact ⟨t, unlink_eq_ok.mpr ⟨nonzero, c, cell, .inl ⟨on, rfl⟩⟩⟩
  | true =>
    by_cases first : t.head (t.bucketOf c.value) = i
    · exact ⟨_, unlink_eq_ok.mpr ⟨nonzero, c, cell, .inr ⟨on, .inl ⟨first, rfl⟩⟩⟩⟩
    · obtain ⟨l, chain, distinct, members⟩ := indexed.chains _ (bucketOf_lt t c.value)
      have member : i ∈ l := (members i).mpr ⟨c, cell, on, rfl⟩
      obtain ⟨p, walk⟩ : ∃ p, t.prevOf i (t.cells.size + 1) (t.head (t.bucketOf c.value)) = .ok p :=
        prevOf_isOk chain member first (by
          have := chain.length_le distinct
          omega)
      exact ⟨_, unlink_eq_ok.mpr ⟨nonzero, c, cell, .inr ⟨on, .inr ⟨first, p, walk, rfl⟩⟩⟩⟩

variable [BEq α] [LawfulBEq α]

/-- What a client gets from a table whose chains hold exactly its linked cells. -/
structure Answers (t : UniqueTable α) : Prop where
  /-- A look-up returns a linked cell holding the value, and returns nothing exactly when no
  linked cell holds it: its walk never runs out before the end of the chain. -/
  findSome : ∀ (v : α) (i : Nat), t.find v = some i →
    ∃ c : Cell α, t.cells[i]? = some c ∧ c.linked = true ∧ c.value = v
  findNone : ∀ v : α, t.find v = none ↔
    ∀ (i : Nat) (c : Cell α), t.cells[i]? = some c → c.linked = true → c.value ≠ v
  /-- A put that finds the value returns its cell and changes nothing. -/
  putFound : ∀ (v : α) (i : Nat) (t' : UniqueTable α), t.put v = .ok ((i, false), t') →
    t' = t ∧ ∃ c : Cell α, t.cells[i]? = some c ∧ c.linked = true ∧ c.value = v
  /-- Otherwise no linked cell held the value; the put appends it as the last cell and links it,
  and every other cell keeps its value and its link. -/
  putCreated : ∀ (v : α) (i : Nat) (t' : UniqueTable α), t.put v = .ok ((i, true), t') →
    (∀ (j : Nat) (c : Cell α), t.cells[j]? = some c → c.linked = true → c.value ≠ v) ∧ i = t.cells.size ∧
      t'.cells.size = t.cells.size + 1 ∧ t'.valueAt i = some v ∧ t'.linkedAt i = true ∧
      ∀ j, j ≠ i → t'.valueAt j = t.valueAt j ∧ t'.linkedAt j = t.linkedAt j
  /-- A put succeeds on a table with its sentinel. -/
  putOk : t.cells.size ≠ 0 → ∀ v : α, ∃ r, t.put v = .ok r
  /-- An unlink succeeds on every cell but the sentinel. -/
  unlinkOk : ∀ i : Nat, i ≠ 0 → i < t.cells.size → ∃ t', t.unlink i = .ok t'

theorem Indexed.answers {t : UniqueTable α} (indexed : t.Indexed) : t.Answers where
  findSome _ _ found := indexed.find_eq_some found
  findNone v := by
    constructor
    · intro missing i c cell linked
      exact indexed.find_eq_none missing cell linked
    · intro none
      cases found : t.find v with
      | none => rfl
      | some i =>
        obtain ⟨c, cell, linked, value⟩ := indexed.find_eq_some found
        exact absurd value (none i c cell linked)
  putFound v i t' put := by
    obtain ⟨-, -, -, rfl⟩ := indexed.put put
    obtain ⟨found, -, -⟩ | ⟨-, absurd, -⟩ := put_eq_ok.mp put
    · exact ⟨rfl, indexed.find_eq_some found⟩
    · cases absurd
  putCreated v i t' put := by
    obtain ⟨-, value, linked, missing, rfl, size, others⟩ := indexed.put put
    exact ⟨fun j c cell on => indexed.find_eq_none missing cell on, rfl, size, value, linked, others⟩
  putOk nonempty v := put_isOk v nonempty
  unlinkOk _ nonzero lt := indexed.unlink_isOk nonzero lt

/-- Every run of operations from a fresh table keeps its hash chains: each bucket's chain holds
exactly the linked cells of that bucket, each once, and ends at 0; the sentinel is never linked,
an unlinked cell points nowhere, the linked count is exact and at most twice the buckets, and
the buckets, `2 ^ bits` of them with `bits` never below the start, are the hash masked by one
less than their count. So look-ups, puts and unlinks answer as documented. -/
theorem run_keeps_hash_chains {bits : Nat} {t₀ t : UniqueTable α} {ops : List (Op α)}
    (fresh : UniqueTable.new bits = .ok t₀) (ran : t₀.run ops = .ok t) :
    t.Invariant bits ∧ t.Answers ∧
      ∀ v, t.bucketOf v = (BucketHash.bucketHash v).toNat &&& (t.bucketCount - 1) := by
  have inv := (Invariant.new fresh).run ran
  exact ⟨inv, inv.indexed.answers, bucketOf_eq_and t⟩

/-- A fresh table with two buckets, three cells added, two of them linked and read back. -/
theorem run_keeps_hash_chains_two_links :
    ∃ t₀ t : UniqueTable (UInt64 × UInt64 × UInt64), UniqueTable.new 1 = .ok t₀ ∧
      t₀.run [.add (0, 0, 0), .add (2, 0, 0), .add (4, 1, 0), .link 1, .link 2, .isLinked 2,
        .next 2, .value 1] = .ok t ∧ t.Invariant 1 ∧ t.Answers := by
  obtain ⟨t₀, t, fresh, ran⟩ : ∃ t₀ t : UniqueTable (UInt64 × UInt64 × UInt64),
      UniqueTable.new 1 = .ok t₀ ∧ t₀.run [.add (0, 0, 0), .add (2, 0, 0), .add (4, 1, 0), .link 1,
        .link 2, .isLinked 2, .next 2, .value 1] = .ok t := ⟨_, _, rfl, rfl⟩
  obtain ⟨inv, answers, -⟩ := run_keeps_hash_chains fresh ran
  exact ⟨t₀, t, fresh, ran, inv, answers⟩

end Answers

end UniqueTable

end MajorityGraph
