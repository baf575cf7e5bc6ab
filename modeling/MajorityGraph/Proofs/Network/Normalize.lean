import MajorityGraph.Network.Normalize

/-!
Normalizing fan-ins keeps their majority and gives sorted fan-ins on three distinct nodes with at
most one complemented.
-/

namespace MajorityGraph

/-- The majority of three truth values. -/
def maj3 (x y z : Bool) : Bool := (x && y) || (x && z) || (y && z)

/-- Self-duality: the majority of the complements is the complement of the majority. -/
theorem maj3_not (x y z : Bool) : maj3 (!x) (!y) (!z) = !maj3 x y z := by
  cases x <;> cases y <;> cases z <;> rfl

theorem maj3_same (x y : Bool) : maj3 x x y = x := by
  cases x <;> cases y <;> rfl

theorem maj3_opposite (x y : Bool) : maj3 x (!x) y = y := by
  cases x <;> cases y <;> rfl

theorem maj3_same_right (x y : Bool) : maj3 x y y = y := by
  cases x <;> cases y <;> rfl

theorem maj3_opposite_right (x y : Bool) : maj3 x y (!y) = x := by
  cases x <;> cases y <;> rfl

namespace Signal

/-- The value of a signal under a valuation of the nodes. -/
def eval (val : Node → Bool) (s : Signal) : Bool := val s.node ^^ s.isComplemented

@[simp] theorem eval_complement (val : Node → Bool) (s : Signal)
    : s.complement.eval val = !s.eval val := by
  cases val s.node <;> cases s.isComplemented <;> simp [eval, *]

@[simp] theorem eval_make (val : Node → Bool) (n : Node) (c : Bool)
    : (make n c).eval val = (val n ^^ c) := by
  simp [eval]

@[simp] theorem eval_xor (val : Node → Bool) (s : Signal) (b : Bool)
    : (s.xor b).eval val = (s.eval val ^^ b) := by
  cases b <;> simp [Signal.xor]

@[simp] theorem node_xor (s : Signal) (b : Bool) : (s.xor b).node = s.node := by
  cases b <;> simp [Signal.xor]

@[simp] theorem xor_false (s : Signal) : s.xor false = s := rfl

@[simp] theorem xor_true (s : Signal) : s.xor true = s.complement := rfl

/-- Complementing signals keeps their nodes. -/
@[simp] theorem map_node_xor (l : List Signal) (b : Bool) :
    (l.map (·.xor b)).map Signal.node = l.map Signal.node := by
  simp [Function.comp_def]

/-- Signals that agree up to complementing all of them are on the same nodes. -/
theorem nodes_perm_of_perm_xor {l l' : List Signal} {b : Bool} (perm : l'.Perm (l.map (·.xor b)))
    : (l'.map Signal.node).Perm (l.map Signal.node) :=
  (perm.map Signal.node).trans (List.Perm.of_eq (map_node_xor l b))

theorem node_le_of_raw_le {a b : Signal} (le : a.raw ≤ b.raw) : a.node.id ≤ b.node.id :=
  Nat.div_le_div_right le

theorem raw_lt_of_node_lt {a b : Signal} (lt : a.node.id < b.node.id) : a.raw < b.raw := by
  simp only [node] at lt
  omega

/-- Two different signals on one node are each other's complement. -/
theorem eq_complement_of_node_eq {a b : Signal} (same : a.node = b.node) (different : a ≠ b)
    : b = a.complement := by
  obtain ⟨x⟩ := a
  obtain ⟨y⟩ := b
  simp only [node, Node.mk.injEq] at same
  simp only [ne_eq, Signal.mk.injEq] at different
  simp only [complement, make, node, isComplemented, Signal.mk.injEq]
  rcases Nat.mod_two_eq_zero_or_one x with hx | hx <;>
    rcases Nat.mod_two_eq_zero_or_one y with hy | hy <;> simp [hx] <;> omega

end Signal

namespace Fanins

/-- The majority of the fan-ins under a valuation of the nodes. -/
def eval (val : Node → Bool) (f : Fanins) : Bool := maj3 (f.a.eval val) (f.b.eval val) (f.c.eval val)

/-- The majority holds when at least two fan-ins hold, so it does not see their order. -/
theorem eval_eq_countP (val : Node → Bool) (f : Fanins)
    : f.eval val = decide (2 ≤ f.toList.countP (·.eval val)) := by
  simp only [eval, toList, List.countP_cons, List.countP_nil]
  cases f.a.eval val <;> cases f.b.eval val <;> cases f.c.eval val <;> decide

theorem eval_of_perm (val : Node → Bool) {f g : Fanins} (perm : f.toList.Perm g.toList)
    : f.eval val = g.eval val := by
  rw [eval_eq_countP, eval_eq_countP, perm.countP_eq]

@[simp] theorem eval_map_complement (val : Node → Bool) (f : Fanins)
    : (f.map Signal.complement).eval val = !f.eval val := by
  simp [eval, map, maj3_not]

-----------------------------------------------------------------------------------------
-- Sorting
-----------------------------------------------------------------------------------------

theorem order2_perm (x y : Signal) : [(order2 x y).1, (order2 x y).2].Perm [x, y] := by
  unfold order2
  split
  · exact .swap _ _ _
  · exact .refl _

theorem order2_le (x y : Signal) : (order2 x y).1.raw ≤ (order2 x y).2.raw := by
  unfold order2
  split <;> simp <;> omega

theorem le_order2_snd (x y : Signal) : x.raw ≤ (order2 x y).2.raw ∧ y.raw ≤ (order2 x y).2.raw := by
  unfold order2
  split <;> simp <;> omega

theorem order2_snd_le {x y : Signal} {m : Nat} (left : x.raw ≤ m) (right : y.raw ≤ m)
    : (order2 x y).2.raw ≤ m := by
  unfold order2
  split <;> assumption

/-- Sorting is three compare-and-swap steps. -/
theorem sort_eq (f : Fanins) : f.sort =
    let first := order2 f.a f.b
    let second := order2 first.2 f.c
    let third := order2 first.1 second.1
    ⟨third.1, third.2, second.2⟩ := rfl

/-- Sorting permutes the fan-ins. -/
theorem sort_perm (f : Fanins) : f.sort.toList.Perm f.toList := by
  rw [sort_eq]
  simp only [toList]
  exact ((order2_perm _ _).append_right [_]).trans
    (((order2_perm _ _).cons _).trans ((order2_perm _ _).append_right [_]))

/-- Sorting orders the fan-ins by packed value. -/
theorem sort_sorted (f : Fanins) : f.sort.a.raw ≤ f.sort.b.raw ∧ f.sort.b.raw ≤ f.sort.c.raw := by
  rw [sort_eq]
  refine ⟨order2_le _ _, order2_snd_le ?_ (order2_le _ _)⟩
  -- the smaller of the first pair is below the larger of the second
  exact Nat.le_trans (order2_le _ _) (le_order2_snd _ _).1

/-- Fan-ins already in increasing order are left as they are. -/
theorem sort_of_lt {f : Fanins} (first : f.a.raw < f.b.raw) (second : f.b.raw < f.c.raw)
    : f.sort = f := by
  obtain ⟨a, b, c⟩ := f
  simp only at first second
  simp [sort, order2, Nat.not_lt.mpr (Nat.le_of_lt first), Nat.not_lt.mpr (Nat.le_of_lt second)]

@[simp] theorem eval_sort (val : Node → Bool) (f : Fanins) : f.sort.eval val = f.eval val :=
  eval_of_perm val (sort_perm f)

end Fanins

/-- The value of a normalized majority: the signal, or the gate complemented by its flag. -/
def Normalized.eval (val : Node → Bool) : Normalized → Bool
  | .trivial s => s.eval val
  | .gate f complement => f.eval val ^^ complement

namespace Fanins

-----------------------------------------------------------------------------------------
-- Normalizing
-----------------------------------------------------------------------------------------

/-- Normalizing keeps the majority of the fan-ins. -/
theorem eval_normalize (val : Node → Bool) (f : Fanins) : f.normalize.eval val = f.eval val := by
  rw [← eval_sort val f]
  unfold normalize
  generalize f.sort = s
  dsimp only
  split
  · -- two fan-ins on one node: equal ones decide, opposite ones cancel
    rename_i sameNode
    simp only [Normalized.eval]
    split
    · rename_i same
      simp [eval, same, maj3_same]
    · rename_i different
      simp [eval, Signal.eq_complement_of_node_eq sameNode different, maj3_opposite]
  · split
    · rename_i sameNode
      simp only [Normalized.eval]
      split
      · rename_i same
        simp [eval, same, maj3_same_right]
      · rename_i different
        simp [eval, Signal.eq_complement_of_node_eq sameNode different, maj3_opposite_right]
    · split
      · simp [Normalized.eval]
      · simp [Normalized.eval]

/-- Complementing all three fan-ins complements the ones that were plain. -/
theorem complementCount_map_complement (f : Fanins)
    : (f.map Signal.complement).complementCount + f.complementCount = 3 := by
  simp only [complementCount, map, toList]
  cases a : f.a.isComplemented <;> cases b : f.b.isComplemented <;>
    cases c : f.c.isComplemented <;> simp [a, b, c]

/-- A gate result of normalization is the sorted fan-ins, on three increasing nodes, all
complemented exactly when two or more of them were. -/
theorem normalize_eq_gate {f g : Fanins} {c : Bool} (gate : f.normalize = .gate g c)
    : f.sort.a.node.id < f.sort.b.node.id ∧ f.sort.b.node.id < f.sort.c.node.id ∧
        g = (if c then f.sort.map Signal.complement else f.sort) ∧
        (c = true ↔ 2 ≤ f.sort.complementCount) := by
  have sorted := sort_sorted f
  unfold normalize at gate
  dsimp only at gate
  split at gate
  · cases gate
  · rename_i first
    split at gate
    · cases gate
    · rename_i second
      have first' : f.sort.a.node.id ≠ f.sort.b.node.id := fun same => first (congrArg Node.mk same)
      have second' : f.sort.b.node.id ≠ f.sort.c.node.id :=
        fun same => second (congrArg Node.mk same)
      refine ⟨Nat.lt_of_le_of_ne (Signal.node_le_of_raw_le sorted.1) first',
        Nat.lt_of_le_of_ne (Signal.node_le_of_raw_le sorted.2) second', ?_⟩
      split at gate <;> (cases gate; simp_all)

/-- A trivial majority is one of its fan-ins. -/
theorem mem_of_normalize_eq_trivial {f : Fanins} {s : Signal} (trivial : f.normalize = .trivial s)
    : s ∈ f.toList := by
  have within : s ∈ f.sort.toList := by
    unfold normalize at trivial
    dsimp only at trivial
    split at trivial
    · cases trivial
      split <;> simp [toList]
    · split at trivial
      · cases trivial
        split <;> simp [toList]
      · split at trivial <;> cases trivial
  exact (sort_perm f).subset within

/-- Normalized fan-ins name the nodes of the original fan-ins, each once. -/
theorem nodes_normalize {f g : Fanins} {c : Bool} (gate : f.normalize = .gate g c)
    : (g.toList.map Signal.node).Perm (f.toList.map Signal.node) := by
  obtain ⟨-, -, rfl, -⟩ := normalize_eq_gate gate
  -- complementing keeps the nodes
  have sameNodes : (if c then f.sort.map Signal.complement else f.sort).toList.map Signal.node =
      f.sort.toList.map Signal.node := by
    split <;> simp [map, toList]
  rw [sameNodes]
  exact (sort_perm f).map _

/-- Normalized fan-ins are on three different nodes. -/
theorem nodes_nodup_of_normalize {f g : Fanins} {c : Bool} (gate : f.normalize = .gate g c)
    : (g.toList.map Signal.node).Nodup := by
  obtain ⟨first, second, rfl, -⟩ := normalize_eq_gate gate
  have ids : f.sort.a.node ≠ f.sort.b.node ∧ f.sort.a.node ≠ f.sort.c.node ∧
      f.sort.b.node ≠ f.sort.c.node := by
    refine ⟨fun same => ?_, fun same => ?_, fun same => ?_⟩ <;>
      have := congrArg Node.id same <;> omega
  split <;> simp [map, toList, ids]

/-- Fan-ins on distinct nodes use each of their nodes once. -/
theorem countP_node_of_nodup {f : Fanins} (distinct : (f.toList.map Signal.node).Nodup) (n : Node)
    : f.toList.countP (·.node = n) = if n ∈ f.toList.map Signal.node then 1 else 0 := by
  obtain ⟨a, b, c⟩ := f
  simp only [toList, List.map_cons, List.map_nil, List.nodup_cons, List.mem_cons,
    List.not_mem_nil, or_false, not_or] at distinct
  obtain ⟨⟨ab, ac⟩, bc, -⟩ := distinct
  simp only [toList, List.countP_cons, List.countP_nil, List.map_cons, List.map_nil, List.mem_cons,
    List.not_mem_nil, or_false, decide_eq_true_eq]
  by_cases na : a.node = n <;> by_cases nb : b.node = n <;> by_cases nc : c.node = n <;>
    simp_all [eq_comm]

/-- A gate result of normalization is in normal form itself. -/
theorem normalize_normalize {f g : Fanins} {c : Bool} (gate : f.normalize = .gate g c)
    : g.normalize = .gate g false := by
  obtain ⟨first, second, shape, flag⟩ := normalize_eq_gate gate
  -- the fan-ins sit on increasing nodes whichever polarity they have
  have increasing : g.a.node.id < g.b.node.id ∧ g.b.node.id < g.c.node.id := by
    rw [shape]
    split <;> simp [map, first, second]
  have sorted : g.sort = g := sort_of_lt (Signal.raw_lt_of_node_lt increasing.1)
    (Signal.raw_lt_of_node_lt increasing.2)
  have fewComplements : ¬ 2 ≤ g.complementCount := by
    rw [shape]
    split
    · rename_i complemented
      have := complementCount_map_complement f.sort
      have := flag.mp complemented
      omega
    · rename_i plain
      exact fun many => plain (flag.mpr many)
  unfold normalize
  simp only [sorted]
  rw [if_neg fun same => Nat.ne_of_lt increasing.1 (congrArg Node.id same),
    if_neg fun same => Nat.ne_of_lt increasing.2 (congrArg Node.id same), if_neg fewComplements]

@[simp] theorem toList_map (g : Signal → Signal) (f : Fanins) : (f.map g).toList = f.toList.map g :=
  rfl

/-- A gate result of normalization has the majority of the fan-ins, complemented by its flag. -/
theorem eval_of_normalize_eq_gate (val : Node → Bool) {f g : Fanins} {c : Bool}
    (gate : f.normalize = .gate g c) : (g.eval val ^^ c) = f.eval val := by
  rw [← eval_normalize val f, gate]
  rfl

/-- A trivial result of normalization has the majority of the fan-ins. -/
theorem eval_of_normalize_eq_trivial (val : Node → Bool) {f : Fanins} {s : Signal}
    (trivial : f.normalize = .trivial s) : s.eval val = f.eval val := by
  rw [← eval_normalize val f, trivial]
  rfl

/-- What holds of every fan-in node holds of every node of the normalized fan-ins. -/
theorem forall_nodes_of_normalize (P : Node → Prop) {f g : Fanins} {c : Bool}
    (gate : f.normalize = .gate g c) (all : ∀ s ∈ f.toList, P s.node) : ∀ s ∈ g.toList, P s.node := by
  intro s member
  obtain ⟨t, tMember, same⟩ :=
    List.mem_map.mp ((nodes_normalize gate).subset (List.mem_map_of_mem member))
  rw [← same]
  exact all t tMember

/-- Normalized fan-ins are the original ones, sorted, and all complemented when the flag says so. -/
theorem perm_of_normalize_eq_gate {f g : Fanins} {c : Bool} (gate : f.normalize = .gate g c)
    : g.toList.Perm (f.toList.map (·.xor c)) := by
  obtain ⟨-, -, rfl, -⟩ := normalize_eq_gate gate
  cases c with
  | false => simpa using sort_perm f
  | true => simpa using (sort_perm f).map Signal.complement

/-- Fan-ins whose majority collapses repeat a node. -/
theorem not_nodup_of_normalize_eq_trivial {f : Fanins} {s : Signal}
    (trivial : f.normalize = .trivial s) : ¬ (f.toList.map Signal.node).Nodup := by
  intro distinct
  have sorted : (f.sort.toList.map Signal.node).Nodup := ((sort_perm f).map _).nodup_iff.mpr distinct
  simp only [toList, List.map_cons, List.map_nil, List.nodup_cons, List.mem_cons,
    List.not_mem_nil, or_false, not_or] at sorted
  unfold normalize at trivial
  simp only [sorted.1.1, sorted.2.1, if_false] at trivial
  split at trivial <;> cases trivial

/-- A gate in normal form has at most one complemented fan-in, on strictly rising signals. -/
theorem normal_shape {f : Fanins} (normal : f.normalize = .gate f false)
    : f.complementCount < 2 ∧ f.toList.Pairwise (·.raw < ·.raw) := by
  obtain ⟨first, second, same, flag⟩ := normalize_eq_gate normal
  simp only [Bool.false_eq_true, if_false] at same
  rw [← same] at first second flag
  refine ⟨Nat.lt_of_not_le fun many => Bool.false_ne_true (flag.mpr many), ?_⟩
  have ab := Signal.raw_lt_of_node_lt first
  have bc := Signal.raw_lt_of_node_lt second
  simp only [toList, List.pairwise_cons, List.mem_cons, List.not_mem_nil, or_false,
    forall_eq_or_imp, forall_eq]
  exact ⟨⟨ab, Nat.lt_trans ab bc⟩, bc, by simp, by simp⟩

/-- Two gates in normal form whose fan-ins agree up to complementing all of them agree exactly:
complementing all three of at most one complemented fan-in leaves two or more. -/
theorem eq_of_normal_of_perm {f g : Fanins} {c : Bool} (normalF : f.normalize = .gate f false)
    (normalG : g.normalize = .gate g false) (perm : g.toList.Perm (f.toList.map (·.xor c)))
    : c = false ∧ g = f := by
  obtain ⟨fewF, risingF⟩ := normal_shape normalF
  obtain ⟨fewG, risingG⟩ := normal_shape normalG
  have plain : c = false := by
    cases c with
    | false => rfl
    | true =>
        have counts : g.complementCount = (f.map Signal.complement).complementCount := by
          unfold complementCount
          rw [(perm.filter _).length_eq, toList_map]
          simp
        have := complementCount_map_complement f
        omega
  subst plain
  have same : g.toList = f.toList :=
    List.Perm.eq_of_pairwise (fun a b _ _ lt gt => absurd (Nat.lt_trans lt gt) (Nat.lt_irrefl _))
      risingG risingF (by simpa using perm)
  refine ⟨rfl, ?_⟩
  cases f
  cases g
  simp_all [toList]

end Fanins

end MajorityGraph
