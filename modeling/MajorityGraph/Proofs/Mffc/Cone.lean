import Mathlib.Algebra.Order.BigOperators.Group.Finset
import MajorityGraph.Mffc
import MajorityGraph.Proofs.Simulation.ConeViews
import MajorityGraph.Proofs.Network.Coherence

/-!
Maximum fan-out-free cones: `Mffc.nodes` returns the least set closed under the uses of its
members (`IsCone`), grown with a stack that keeps `Growing`.
-/

namespace MajorityGraph

namespace Network

variable {net : Network}

/-- The fan-in slots of the live gates of `S` that use node `g`. -/
def slotsFrom (net : Network) (S : Finset Node) (g : Node) : Nat := ∑ m ∈ S, net.slots m g

/-- `S` holds `root` and every live gate outside `leaves` that the gates of `S` use and that has
no other use: its fan-out is the number of fan-in slots that gates of `S` have on it. -/
def ConeClosed (net : Network) (root : Node) (leaves : Array Node) (S : Finset Node) : Prop :=
  root ∈ S ∧ ∀ g, (net.gateFanins g).isSome → g ∉ leaves → 0 < net.slotsFrom S g →
    net.fanoutSize g = .ok (net.slotsFrom S g) → g ∈ S

/-- The cone of `root` bounded by `leaves`: the least closed set. -/
def IsCone (net : Network) (root : Node) (leaves : Array Node) (S : Finset Node) : Prop :=
  ConeClosed net root leaves S ∧ ∀ T, ConeClosed net root leaves T → S ⊆ T

@[simp] theorem slotsFrom_empty (g : Node) : net.slotsFrom ∅ g = 0 := by
  simp [slotsFrom]

theorem slotsFrom_insert {S : Finset Node} {n : Node} (fresh : n ∉ S) (g : Node) :
    net.slotsFrom (insert n S) g = net.slotsFrom S g + net.slots n g := by
  rw [slotsFrom, Finset.sum_insert fresh, Nat.add_comm]
  rfl

/-- The fan-out read is the one that the uses of the node record. -/
theorem fanoutSize_eq_ok {n : Node} {k : Nat} :
    net.fanoutSize n = .ok k ↔ ∃ r, net.refsOf n = .ok r ∧ r.fanout = k := by
  unfold Network.fanoutSize
  cases net.refsOf n <;> simp [bind, Except.bind, pure, Except.pure]

/-- Distinct nodes occur at most as often, all told, as the list is long. -/
theorem sum_count_le_length (S : Finset Node) (l : List Node) : ∑ m ∈ S, l.count m ≤ l.length := by
  calc ∑ m ∈ S, l.count m ≤ ∑ m ∈ S ∪ l.toFinset, l.count m :=
        Finset.sum_le_sum_of_subset Finset.subset_union_left
    _ = l.length := by
        simpa using Multiset.sum_count_eq_card (m := (l : Multiset Node))
          fun a listed => Finset.mem_union_right S (List.mem_toFinset.mpr listed)

/-- In a coherent network the gates of any set use a node at most as often as its fan-out
counts: every such use is a parent entry. -/
theorem Coherent.slotsFrom_le (coherent : net.Coherent) (S : Finset Node) {g : Node} {k : Nat}
    (fanout : net.fanoutSize g = .ok k) : net.slotsFrom S g ≤ k := by
  obtain ⟨r, found, rfl⟩ := fanoutSize_eq_ok.mp fanout
  have uses := (refsOf_eq_ok.mp found).2
  calc net.slotsFrom S g = ∑ m ∈ S, r.parents.toList.count m := by
        refine Finset.sum_congr rfl fun m _ => ?_
        rw [← coherent.parents g r m uses, Array.count_toList]
    _ ≤ r.parents.toList.length := sum_count_le_length S _
    _ ≤ r.fanout := by
        rw [coherent.fanout g r uses, Array.length_toList]
        omega

/-- A set whose gates that use `g` all lie in `S` has at most the uses of `g` that `S` has. -/
theorem slotsFrom_le_of_users {P S : Finset Node} {g : Node}
    (users : ∀ p ∈ P, 0 < net.slots p g → p ∈ S) : net.slotsFrom P g ≤ net.slotsFrom S g := by
  classical
  calc net.slotsFrom P g = ∑ p ∈ P with net.slots p g ≠ 0, net.slots p g :=
        (Finset.sum_filter_ne_zero P).symm
    _ ≤ net.slotsFrom S g := by
        refine Finset.sum_le_sum_of_subset fun p member => ?_
        obtain ⟨inP, used⟩ := Finset.mem_filter.mp member
        exact users p inP (Nat.pos_of_ne_zero used)

/-- A gate uses a node in some slot exactly when the node is one of its fan-ins. -/
theorem slots_pos_iff {g n : Node} : 0 < net.slots g n ↔ n ∈ net.faninNodes g := by
  rw [slots_eq_count, List.count_pos_iff]

theorem slots_of_gateFanins {g n : Node} {f : Fanins} (gate : net.gateFanins g = some f) :
    net.slots g n = f.toList.countP (·.node = n) := by
  simp [slots, gate]

/-- A ranking falls from a gate to every node it uses. -/
theorem Ranked.lt_of_slots {rank : Node → Nat} (ranked : net.Ranked rank) {g n : Node}
    (used : 0 < net.slots g n) : rank n < rank g := by
  obtain ⟨f, gate, s, member, rfl⟩ := mem_faninNodes.mp (slots_pos_iff.mp used)
  exact ranked g f gate s member

/-- A node that a live gate of a coherent network uses is live. -/
theorem Coherent.live_of_slots (coherent : net.Coherent) {g n : Node} (used : 0 < net.slots g n) :
    net.Live n := by
  obtain ⟨f, gate, s, member, rfl⟩ := mem_faninNodes.mp (slots_pos_iff.mp used)
  exact coherent.faninsLive g f gate s member

/-- A node that the gates of some set use is live. -/
theorem Coherent.live_of_slotsFrom (coherent : net.Coherent) {S : Finset Node} {g : Node}
    (used : 0 < net.slotsFrom S g) : net.Live g := by
  obtain ⟨p, -, usesG⟩ := Finset.sum_pos_iff.mp used
  exact coherent.live_of_slots usesG

/-- In a coherent network the fan-out read for a node is the one its reference record holds. -/
theorem Coherent.fanoutSize_of_refs (coherent : net.Coherent) {n : Node} {r : NodeRefs}
    (found : net.refs[n.id]? = some r) : net.fanoutSize n = .ok r.fanout := by
  have below : n.id < net.table.cells.size := by
    rw [← coherent.sizes]
    exact (Array.getElem?_eq_some_iff.mp found).1
  exact fanoutSize_eq_ok.mpr ⟨r, refsOf_eq_ok.mpr ⟨below, found⟩, rfl⟩

/-- The fan-out of a live node of a coherent network can be read. -/
theorem Coherent.fanoutSize_of_live (coherent : net.Coherent) {n : Node} (live : net.Live n) :
    ∃ k, net.fanoutSize n = .ok k := by
  obtain ⟨r, found, -⟩ := coherent.refsOf_live live
  exact ⟨r.fanout, fanoutSize_eq_ok.mpr ⟨r, found, rfl⟩⟩

end Network

namespace Mffc

open Network

variable {net : Network} {leaves : Array Node} {uses : Node → Nat} {counts : Counts}

/-- The counts of a cone growing in `net` once `uses g` fan-in slots of its members on each node
`g` are counted: a gate outside `leaves` with a counted use has an entry, the part of its fan-out
that the counted uses leave, and no other node has one. -/
structure Counted (net : Network) (leaves : Array Node) (uses : Node → Nat) (counts : Counts) :
    Prop where
  entry : ∀ g r, counts[g.id]? = some r → LogicNetwork.isGate net g = .ok true ∧ g ∉ leaves ∧
    0 < uses g ∧ net.fanoutSize g = .ok (r + uses g)
  present : ∀ g, LogicNetwork.isGate net g = .ok true → g ∉ leaves → 0 < uses g → g.id ∈ counts

theorem Counted.empty : Counted net leaves (net.slotsFrom ∅) {} where
  entry g r found := by simp at found
  present g _ _ used := by simp at used

/-- Counts that agree on the gates outside the leaves count the same. -/
theorem Counted.congr {uses' : Node → Nat} (counted : Counted net leaves uses counts)
    (same : ∀ g, LogicNetwork.isGate net g = .ok true → g ∉ leaves → uses' g = uses g) :
    Counted net leaves uses' counts where
  entry g r found := by
    obtain ⟨gate, outside, used, fanout⟩ := counted.entry g r found
    rw [same g gate outside]
    exact ⟨gate, outside, used, fanout⟩
  present g gate outside used := counted.present g gate outside (same g gate outside ▸ used)

/-- The count a release reads for a gate outside the leaves: its entry, or its fan-out when no use
is counted yet. -/
theorem Counted.lookup (counted : Counted net leaves uses counts) {g : Node} {k : Nat}
    (gate : LogicNetwork.isGate net g = .ok true) (outside : g ∉ leaves)
    (fanout : net.fanoutSize g = .ok k) :
    counts[g.id]? = some (k - uses g) ∨ (counts[g.id]? = none ∧ uses g = 0) := by
  cases found : counts[g.id]? with
  | some r =>
    obtain ⟨-, -, -, fanout'⟩ := counted.entry g r found
    rw [fanout] at fanout'
    have : k = r + uses g := Except.ok.inj fanout'
    left
    congr 1
    omega
  | none =>
    refine .inr ⟨rfl, Nat.eq_zero_of_not_pos fun used => ?_⟩
    have := counted.present g gate outside used
    rw [Std.HashMap.mem_iff_isSome_getElem?, found] at this
    cases this

/-- Where a release pass stands once it has counted `more g` further uses of each node `g`: the
counts hold all the uses so far, and the joined gates are, once each, those outside the leaves
that these further uses bring to their fan-out. -/
structure Released (net : Network) (leaves : Array Node) (uses more : Node → Nat)
    (joined : List Node) (counts : Counts) : Prop where
  counted : Counted net leaves (fun g => uses g + more g) counts
  nodup : joined.Nodup
  mem_joined : ∀ g, g ∈ joined ↔ 0 < more g ∧ LogicNetwork.isGate net g = .ok true ∧
    g ∉ leaves ∧ net.fanoutSize g = .ok (uses g + more g)

theorem Released.start (counted : Counted net leaves uses counts) :
    Released net leaves uses (fun _ => 0) [] counts where
  counted := counted.congr fun _ _ _ => rfl
  nodup := List.nodup_nil
  mem_joined g := by simp

/-- Further uses of a node that is no gate outside the leaves change nothing. -/
theorem Released.congr {more more' : Node → Nat} {joined : List Node}
    (released : Released net leaves uses more joined counts)
    (same : ∀ g, LogicNetwork.isGate net g = .ok true → g ∉ leaves → more' g = more g) :
    Released net leaves uses more' joined counts where
  counted := released.counted.congr fun g gate outside => by rw [same g gate outside]
  nodup := released.nodup
  mem_joined g := by
    rw [released.mem_joined g]
    constructor
    · rintro ⟨used, gate, outside, fanout⟩
      rw [← same g gate outside] at used fanout
      exact ⟨used, gate, outside, fanout⟩
    · rintro ⟨used, gate, outside, fanout⟩
      rw [same g gate outside] at used fanout
      exact ⟨used, gate, outside, fanout⟩

/-- One more use of a gate `c` outside the leaves, with room left in its fan-out: its count drops
by one, and it joins when the count reaches zero. -/
theorem Released.count {more : Node → Nat} {joined : List Node}
    (released : Released net leaves uses more joined counts) {c : Node} {k : Nat}
    (gate : LogicNetwork.isGate net c = .ok true) (outside : c ∉ leaves)
    (fanout : net.fanoutSize c = .ok k) (room : uses c + more c + 1 ≤ k) :
    Released net leaves uses (fun g => more g + if c = g then 1 else 0)
      (if k - (uses c + more c) - 1 = 0 then joined ++ [c] else joined)
      (counts.insert c.id (k - (uses c + more c) - 1)) := by
  -- `c` was not joined before: its fan-out has room beyond the uses counted so far
  have fresh : c ∉ joined := fun member => by
    obtain ⟨-, -, -, full⟩ := (released.mem_joined c).mp member
    rw [fanout] at full
    have : k = uses c + more c := Except.ok.inj full
    omega
  have other_id : ∀ {g : Node}, c ≠ g → (c.id == g.id) = false := fun apart =>
    beq_false_of_ne fun same => apart (Node.eq_of_id_eq same)
  refine ⟨⟨fun g r found => ?_, fun g gate' outside' used => ?_⟩, ?_, fun g => ?_⟩
  · rw [Std.HashMap.getElem?_insert] at found
    by_cases same : c = g
    · subst same
      simp only [beq_self_eq_true, if_true, Option.some.injEq] at found
      subst found
      refine ⟨gate, outside, by simp, ?_⟩
      rw [fanout]
      congr 1
      simp only [if_true]
      omega
    · simp only [other_id same, Bool.false_eq_true, if_false] at found
      simpa [same] using released.counted.entry g r found
  · rw [Std.HashMap.mem_insert]
    by_cases same : c = g
    · exact .inl (by simp [same])
    · simp only [same, if_false, Nat.add_zero] at used
      exact .inr (released.counted.present g gate' outside' used)
  · split
    · exact released.nodup.append (List.nodup_singleton c) (by simpa using fresh)
    · exact released.nodup
  · by_cases same : c = g
    · subst same
      have reached : net.fanoutSize c = .ok (uses c + (more c + 1)) ↔ k - (uses c + more c) - 1 = 0 := by
        rw [fanout, Except.ok.injEq]
        omega
      simp only [if_true, reached]
      split <;> simp_all
    · have notC : g ≠ c := Ne.symm same
      simp only [same, if_false, Nat.add_zero]
      rw [← released.mem_joined g]
      split <;> simp [notC]

/-- One signal more of a list counts one use more of its node. -/
theorem countP_take_succ (l : List Signal) {i : Nat} (lt : i < l.length) (g : Node) :
    (l.take (i + 1)).countP (·.node = g) =
      (l.take i).countP (·.node = g) + if l[i].node = g then 1 else 0 := by
  rw [List.take_add_one, List.getElem?_eq_getElem lt]
  simp only [Option.toList_some, List.countP_append, List.countP_singleton, decide_eq_true_eq]

/-- A release pass over a live gate `n` of a coherent network whose uses, added to those counted,
stay within every fan-out, succeeds: it counts the uses of `n`. -/
theorem release_spec (coherent : net.Coherent) (counted : Counted net leaves uses counts)
    {n : Node} {f : Fanins} (stored : net.gateFanins n = some f)
    (room : ∀ g k, net.fanoutSize g = .ok k → uses g + net.slots n g ≤ k) :
    ∃ r, release net leaves n counts = .ok r ∧ Released net leaves uses (net.slots n) r.1 r.2 := by
  simp only [release, fanins_of_gateFanins stored, except_ok_bind]
  apply forIn_ok_bind (fun i b => Released net leaves uses
    (fun g => (f.toList.take i).countP (·.node = g)) b.1 b.2)
  · intro i lt ⟨joined, counts⟩ released
    dsimp only at released ⊢
    have live : net.Live f.toList[i].node :=
      coherent.faninsLive n f stored _ (List.getElem_mem lt)
    have gateTest := coherent.isGate_eq live
    rw [funext (countP_take_succ f.toList lt), gateTest]
    set c := f.toList[i].node with named
    by_cases counting : (net.gateFanins c).isSome = true ∧ c ∉ leaves
    · -- a gate outside the leaves: its count is read and lowered
      obtain ⟨gate, outside⟩ := counting
      have gateTrue : LogicNetwork.isGate net c = .ok true := gateTest.trans (by rw [gate])
      obtain ⟨k, fanout⟩ := coherent.fanoutSize_of_live live
      have within : (f.toList.take i).countP (·.node = c) + 1 ≤ net.slots n c := by
        have upTo := countP_take_succ f.toList lt c
        rw [if_pos named.symm] at upTo
        rw [slots_of_gateFanins stored, ← upTo]
        exact (List.take_sublist _ _).countP_le
      have roomC := room c k fanout
      set u := uses c + (f.toList.take i).countP (·.node = c) with counted_u
      have positive : k - u ≠ 0 := by omega
      refine ⟨(if k - u - 1 = 0 then joined ++ [c] else joined, counts.insert c.id (k - u - 1)), ?_,
        released.count gateTrue outside fanout (by omega)⟩
      have fanout' : LogicNetwork.fanoutSize net c = .ok k := fanout
      rcases released.counted.lookup gateTrue outside fanout with found | ⟨missing, zero⟩
      · rw [← counted_u] at found
        simp [gate, outside, found, Std.HashMap.get?_eq_getElem?, positive]
        split_ifs <;> rfl
      · rw [← counted_u] at zero
        have unused : k ≠ 0 := by omega
        simp [gate, outside, missing, fanout', Std.HashMap.get?_eq_getElem?, zero, unused]
        split_ifs <;> rfl
    · -- any other fan-in is passed over
      refine ⟨(joined, counts), ?_, released.congr fun g gate' outside' => ?_⟩
      · have skip : (!(net.gateFanins c).isSome || leaves.contains c) = true := by
          cases isGate : (net.gateFanins c).isSome
          · rfl
          · simpa using not_and_not_right.mp counting isGate
        simp only [except_ok_bind, skip, if_true]
        rfl
      · have notC : c ≠ g := by
          rintro rfl
          rw [gateTest] at gate'
          exact counting ⟨Except.ok.inj gate', outside'⟩
        simp [notC]
  · simpa using Released.start counted
  · rintro ⟨joined, counts⟩ released
    refine ⟨(joined, counts), rfl, ?_⟩
    simp only [List.take_length] at released
    exact released.congr fun g _ _ => slots_of_gateFanins stored

variable {rank : Node → Nat} {root : Node}

/-- The growth of the cone of `root`: the cone lists, once each and root first, gates ranked no
higher than the root; `done` holds the members already released and the stack the others. A
member other than the root lies outside the leaves and every use of it comes from `done`; the
counts hold the uses from `done`, and every gate whose uses all come from `done` is a member. -/
structure Growing (net : Network) (leaves : Array Node) (root : Node) (rank : Node → Nat)
    (done : Finset Node) (stack : List Node) (cone : Array Node) (counts : Counts) : Prop where
  nodup : cone.toList.Nodup
  first : cone[0]? = some root
  parts : ∀ m, m ∈ cone ↔ m ∈ done ∨ m ∈ stack
  apart : ∀ m ∈ stack, m ∉ done
  stackNodup : stack.Nodup
  gates : ∀ m ∈ cone, (net.gateFanins m).isSome
  below : ∀ m ∈ cone, rank m ≤ rank root
  used : ∀ m ∈ cone, m ≠ root →
    m ∉ leaves ∧ 0 < net.slotsFrom done m ∧ net.fanoutSize m = .ok (net.slotsFrom done m)
  counted : Counted net leaves (net.slotsFrom done) counts
  closed : ∀ g, LogicNetwork.isGate net g = .ok true → g ∉ leaves → 0 < net.slotsFrom done g →
    net.fanoutSize g = .ok (net.slotsFrom done g) → g ∈ cone

theorem Growing.start (gate : (net.gateFanins root).isSome) :
    Growing net leaves root rank ∅ [root] #[root] {} where
  nodup := by simp
  first := rfl
  parts m := by simp
  apart m _ := Finset.notMem_empty m
  stackNodup := List.nodup_singleton root
  gates m member := by
    rw [Array.mem_singleton.mp member]
    exact gate
  below m member := by rw [Array.mem_singleton.mp member]
  used m member other := absurd (Array.mem_singleton.mp member) other
  counted := Counted.empty
  closed g _ _ used := by simp at used

/-- Releasing the top of the stack keeps the growth: the member moves to `done`, and the gates
whose uses it completes join the cone and the stack. -/
theorem Growing.step (coherent : net.Coherent) (ranked : net.Ranked rank) {done : Finset Node}
    {n : Node} {stack : List Node} {cone : Array Node}
    (growing : Growing net leaves root rank done (n :: stack) cone counts) :
    ∃ joined counts', release net leaves n counts = .ok (joined, counts') ∧
      Growing net leaves root rank (insert n done) (joined.reverse ++ stack)
        (cone ++ joined.toArray) counts' := by
  have member : n ∈ cone := (growing.parts n).mpr (.inr List.mem_cons_self)
  have pending : n ∉ done := growing.apart n List.mem_cons_self
  obtain ⟨f, stored⟩ := Option.isSome_iff_exists.mp (growing.gates n member)
  have slots : ∀ g, net.slotsFrom (insert n done) g = net.slotsFrom done g + net.slots n g :=
    slotsFrom_insert pending
  obtain ⟨⟨joined, counts'⟩, run, released⟩ := release_spec coherent growing.counted stored
    fun g k fanout => slots g ▸ coherent.slotsFrom_le _ fanout
  have joins : ∀ m, m ∈ joined ↔ 0 < net.slots n m ∧ LogicNetwork.isGate net m = .ok true ∧
      m ∉ leaves ∧ net.fanoutSize m = .ok (net.slotsFrom (insert n done) m) := fun m => by
    rw [released.mem_joined m, slots m]
  have lower : ∀ m ∈ joined, rank m < rank n := fun m joinsM =>
    ranked.lt_of_slots ((joins m).mp joinsM).1
  -- a joining gate was no member: not the root, which ranks above `n`, and no other member,
  -- whose uses all came from `done` already
  have fresh : ∀ m ∈ joined, m ∉ cone := by
    intro m joinsM inCone
    obtain ⟨usedByN, -, -, fanout⟩ := (joins m).mp joinsM
    by_cases isRoot : m = root
    · have atMost := growing.below n member
      have under := lower m joinsM
      subst isRoot
      omega
    · obtain ⟨-, -, full⟩ := growing.used m inCone isRoot
      rw [full, slots m, Except.ok.injEq] at fanout
      omega
  have kept : ∀ m ∈ cone, m ≠ root → net.slots n m = 0 := by
    intro m inCone isRoot
    obtain ⟨-, -, full⟩ := growing.used m inCone isRoot
    have atMost := coherent.slotsFrom_le (insert n done) full
    rw [slots m] at atMost
    omega
  have inCone : ∀ m, m ∈ cone ++ joined.toArray ↔ m ∈ cone ∨ m ∈ joined := by simp
  refine ⟨joined, counts', run, ⟨?_, ?_, fun m => ?_, fun m onStack => ?_, ?_, fun m listed => ?_,
    fun m listed => ?_, fun m listed isRoot => ?_, ?_, fun g gate outside usedG fanout => ?_⟩⟩
  · rw [Array.toList_append, List.toList_toArray]
    exact growing.nodup.append released.nodup fun m inOld inNew => fresh m inNew (Array.mem_toList_iff.mp inOld)
  · rw [Array.getElem?_append_left (by simpa using Array.size_pos_of_mem (Array.mem_of_getElem? growing.first)), growing.first]
  · rw [inCone, growing.parts m, Finset.mem_insert, List.mem_append, List.mem_reverse, List.mem_cons]
    tauto
  · rw [Finset.mem_insert, not_or]
    rcases List.mem_append.mp onStack with joinsM | later
    · have notMember := fresh m (List.mem_reverse.mp joinsM)
      refine ⟨fun same => notMember (same ▸ member), fun isDone => notMember ((growing.parts m).mpr (.inl isDone))⟩
    · refine ⟨fun same => (List.nodup_cons.mp growing.stackNodup).1 (same ▸ later), growing.apart m (List.mem_cons_of_mem n later)⟩
  · refine (List.nodup_reverse.mpr released.nodup).append (List.nodup_cons.mp growing.stackNodup).2 fun m joinsM later => ?_
    exact fresh m (List.mem_reverse.mp joinsM) ((growing.parts m).mpr (.inr (List.mem_cons_of_mem n later)))
  · rcases (inCone m).mp listed with old | joinsM
    · exact growing.gates m old
    · obtain ⟨usedByN, gate, -, -⟩ := (joins m).mp joinsM
      rw [coherent.isGate_eq (coherent.live_of_slots usedByN)] at gate
      exact Except.ok.inj gate
  · rcases (inCone m).mp listed with old | joinsM
    · exact growing.below m old
    · have := lower m joinsM
      have := growing.below n member
      omega
  · rcases (inCone m).mp listed with old | joinsM
    · obtain ⟨outside, usedM, fanout⟩ := growing.used m old isRoot
      rw [slots m, kept m old isRoot, Nat.add_zero]
      exact ⟨outside, usedM, fanout⟩
    · obtain ⟨usedByN, -, outside, fanout⟩ := (joins m).mp joinsM
      exact ⟨outside, by rw [slots m]; omega, fanout⟩
  · exact released.counted.congr fun g _ _ => slots g
  · rw [inCone]
    by_cases unused : net.slots n g = 0
    · rw [slots g, unused, Nat.add_zero] at usedG fanout
      exact .inl (growing.closed g gate outside usedG fanout)
    · exact .inr ((joins g).mpr ⟨Nat.pos_of_ne_zero unused, gate, outside, fanout⟩)

/-- A member of a growing cone is a live gate, so its id lies below the network's size. -/
theorem Growing.id_lt (coherent : net.Coherent) {done : Finset Node} {stack : List Node}
    {cone : Array Node} (growing : Growing net leaves root rank done stack cone counts) {m : Node}
    (member : m ∈ cone.toList) : m.id < net.size := by
  obtain ⟨f, stored⟩ := Option.isSome_iff_exists.mp (growing.gates m (Array.mem_toList_iff.mp member))
  exact coherent.lt_size_of_live (live_of_gateFanins stored)

/-- The growth ends when its fuel exceeds what is left to do: each release pops the stack or
adds a member, and members are distinct nodes of the network. It ends with nothing left to
release. -/
theorem Growing.run (coherent : net.Coherent) (ranked : net.Ranked rank) :
    ∀ (fuel : Nat) {done : Finset Node} {stack : List Node} {cone : Array Node} {counts : Counts},
      Growing net leaves root rank done stack cone counts →
      stack.length + (net.size - cone.size) < fuel →
      ∃ done' cone' counts', grow net leaves fuel stack cone counts = .ok cone' ∧
        Growing net leaves root rank done' [] cone' counts'
  | 0, _, _, _, _, _, enough => absurd enough (Nat.not_lt_zero _)
  | fuel + 1, done, [], cone, counts, growing, _ => ⟨done, cone, counts, rfl, growing⟩
  | fuel + 1, done, n :: stack, cone, counts, growing, enough => by
    obtain ⟨joined, counts', released, next⟩ := growing.step coherent ranked
    have fits : (cone ++ joined.toArray).toList.length ≤ net.size :=
      length_le_of_ids_lt next.nodup fun m member => next.id_lt coherent member
    simp only [Array.toList_append, List.length_append, Array.length_toList] at fits
    obtain ⟨done', cone', counts'', run, final⟩ :=
      Growing.run coherent ranked fuel next (by simp at enough ⊢; omega)
    refine ⟨done', cone', counts'', ?_, final⟩
    simp only [grow, released, except_ok_bind]
    exact run

variable {done : Finset Node} {cone : Array Node}

/-- With nothing left to release, the members are the released nodes, and they are closed. -/
theorem Growing.coneClosed (coherent : net.Coherent)
    (growing : Growing net leaves root rank done [] cone counts) : ConeClosed net root leaves done := by
  have released : ∀ m, m ∈ cone ↔ m ∈ done := fun m => by simpa using growing.parts m
  refine ⟨(released root).mp (Array.mem_of_getElem? growing.first), fun g gate outside used fanout => ?_⟩
  have gateTest := coherent.isGate_eq (coherent.live_of_slotsFrom used)
  rw [gate] at gateTest
  exact (released g).mp (growing.closed g gateTest outside used fanout)

/-- Every closed set holds the released members. By induction on how far below the root a member
ranks: its users rank higher, so they lie in the closed set, and they alone use it, so its
fan-out is the closed set's uses of it. -/
theorem Growing.subset (coherent : net.Coherent) (ranked : net.Ranked rank)
    (growing : Growing net leaves root rank done [] cone counts) {S : Finset Node}
    (closed : ConeClosed net root leaves S) : done ⊆ S := by
  intro m
  induction height : rank root - rank m using Nat.strong_induction_on generalizing m with
  | _ d ih =>
  intro isDone
  have listed : m ∈ cone := (growing.parts m).mpr (.inl isDone)
  by_cases isRoot : m = root
  · exact isRoot ▸ closed.1
  obtain ⟨outside, usedM, fanout⟩ := growing.used m listed isRoot
  have users : ∀ p ∈ done, 0 < net.slots p m → p ∈ S := by
    intro p pDone usesM
    have above := ranked.lt_of_slots usesM
    have pBelow := growing.below p ((growing.parts p).mpr (.inl pDone))
    exact ih (rank root - rank p) (by omega) rfl pDone
  have atLeast := slotsFrom_le_of_users users
  have atMost := coherent.slotsFrom_le S fanout
  refine closed.2 m (growing.gates m listed) outside (by omega) ?_
  rw [fanout]
  congr 1
  omega

/-- The cone of a live gate of a coherent network: computing it succeeds, and lists, once each
and root first, live gates that form the least closed set; its size is their number. -/
theorem nodes_spec (coherent : net.Coherent) (gate : (net.gateFanins root).isSome)
    (leaves : Array Node) :
    ∃ cone, nodes net root leaves = .ok cone ∧ size net root leaves = .ok cone.size ∧
      cone.toList.Nodup ∧ cone[0]? = some root ∧ (∀ m ∈ cone, (net.gateFanins m).isSome) ∧
      IsCone net root leaves cone.toList.toFinset := by
  obtain ⟨rank, ranked⟩ := coherent.acyclic
  obtain ⟨f, stored⟩ := Option.isSome_iff_exists.mp gate
  have rootBelow : root.id < net.size := coherent.lt_size_of_live (live_of_gateFanins stored)
  have start : Growing net leaves root rank ∅ [root] #[root] {} := Growing.start gate
  obtain ⟨done, cone, counts, run, final⟩ :=
    Growing.run coherent ranked (LogicNetwork.idBound net + 2) start
      (by simp [LogicNetwork.idBound]; omega)
  have found : nodes net root leaves = .ok cone := run
  have released : cone.toList.toFinset = done := by
    ext m
    simpa using final.parts m
  refine ⟨cone, found, by simp [size, found, Functor.map, Except.map], final.nodup, final.first,
    final.gates, ?_, fun S closed => ?_⟩
  · rw [released]
    exact final.coneClosed coherent
  · rw [released]
    exact final.subset coherent ranked closed

end Mffc

end MajorityGraph
