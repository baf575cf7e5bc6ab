import MajorityGraph.Proofs.Network.Redirect

/-!
Tracking a substitution: a valuation of the network it starts from carries over step by step,
and the old nodes and the outputs keep their values (`Tracks.substituteLoop`).
-/

namespace MajorityGraph

namespace Network

open NetM

-----------------------------------------------------------------------------------------
-- Reading liveness
-----------------------------------------------------------------------------------------

/-- Asking whether a node is dead reads the flag of its uses. -/
theorem isDead_eq_ok {net : Network} {n : Node} {b : Bool}
    : net.isDead n = .ok b ↔ ∃ r, net.refsOf n = .ok r ∧ r.dead = b := by
  unfold isDead
  cases found : net.refsOf n <;> simp [bind, Except.bind, pure, Except.pure]

/-- A node found not dead is live. -/
theorem live_of_isDead {net : Network} {n : Node} (alive : net.isDead n = .ok false)
    : net.Live n := by
  obtain ⟨r, found, dead⟩ := isDead_eq_ok.mp alive
  exact ⟨r, (refsOf_eq_ok.mp found).2, dead⟩

/-- A node found dead is not live. -/
theorem not_live_of_isDead {net : Network} {n : Node} (dead : net.isDead n = .ok true)
    : ¬ net.Live n := by
  obtain ⟨r, found, isDead⟩ := isDead_eq_ok.mp dead
  rintro ⟨r', uses, alive⟩
  rw [(refsOf_eq_ok.mp found).2, Option.some.injEq] at uses
  rw [uses, alive] at isDead
  cases isDead

/-- A live node of a coherent network is found alive. -/
theorem Coherent.isDead_of_live {net : Network} (coherent : net.Coherent) {n : Node}
    (live : net.Live n) : net.isDead n = .ok false := by
  obtain ⟨r, found, alive⟩ := coherent.refsOf_live live
  exact isDead_eq_ok.mpr ⟨r, found, alive⟩

/-- Asking for the parents of a node reads its uses. -/
theorem parents_eq_ok {net : Network} {n : Node} {ps : Array Node}
    : net.parents n = .ok ps ↔ ∃ r, net.refsOf n = .ok r ∧ r.parents = ps := by
  unfold parents
  cases found : net.refsOf n <;> simp [bind, Except.bind, pure, Except.pure]

/-- A live node whose record is a gate is a live gate over the fan-ins of the record. -/
theorem gateFanins_of_valueAt {net : Network} {n : Node} {d : NodeData}
    (value : net.table.valueAt n.id = some d) (isGate : d.isGate = true) (live : net.Live n)
    : net.gateFanins n = some d.fanins := by
  obtain ⟨r, uses, alive⟩ := live
  rw [gateFanins_eq, value, uses]
  simp [isGate, alive]

/-- A live node read as a gate is a live gate over the fan-ins read. -/
theorem gateFanins_of_data {net : Network} {n : Node} {d : NodeData} (read : net.data n = .ok d)
    (isGate : d.isGate = true) (live : net.Live n) : net.gateFanins n = some d.fanins := by
  unfold data at read
  split at read
  · rename_i c cell
    cases read
    exact gateFanins_of_valueAt (by simp [UniqueTable.valueAt, cell]) isGate live
  · cases read

-----------------------------------------------------------------------------------------
-- The parents of a node, once each
-----------------------------------------------------------------------------------------

/-- The parents visited by a substitution are the recorded parents. -/
theorem mem_sortedUnique {ns : Array Node} {p : Node} : p ∈ sortedUnique ns ↔ p ∈ ns := by
  unfold sortedUnique
  dsimp only
  rw [← Array.mem_toList_iff,
    ← (List.mergeSort_perm ns.toList fun a b => decide (a.id ≤ b.id)).mem_iff]
  -- dropping adjacent repeats keeps exactly the members
  induction ns.toList.mergeSort fun a b => decide (a.id ≤ b.id) with
  | nil => simp
  | cons n rest ih =>
      rw [List.foldr_cons, List.mem_cons, ← ih]
      split
      · rename_i m t kept
        rw [kept]
        split
        · rename_i same
          subst same
          simp
        · simp
      · rename_i empty
        rw [empty]
        simp

/-- Induction over the parents that `redirectParents` visits, in order: a property of the network
and the work list that holds at the start, survives a parent found dead, and survives
redirecting a live parent, which goes on the work list when it comes back with a replacement,
holds at the end. -/
theorem redirectParents_induction {net net' : Network} {old : Node} {new : Signal}
    {ps : List Node} {work work' : List (Node × Signal)}
    (P : Nat → Network → List (Node × Signal) → Prop) (start : P 0 net work)
    (skip : ∀ i (lt : i < ps.length) net₁ w, P i net₁ w → ¬ net₁.Live ps[i] → P (i + 1) net₁ w)
    (redirect : ∀ i (lt : i < ps.length) net₁ w res net₂, P i net₁ w → net₁.Live ps[i] →
      Returns (replaceInNode ps[i] old new) net₁ res net₂ →
      P (i + 1) net₂ ((res.map (ps[i], ·)).toList ++ w))
    (run : Returns (redirectParents old new ps work) net work' net') : P ps.length net' work' := by
  unfold Network.redirectParents at run
  obtain ⟨w, net₁, loop, finish⟩ := run.bind
  obtain ⟨rfl, rfl⟩ := returns_pure.mp finish
  refine Returns.forIn_list_index P (fun i lt w net₁ step net₂ holds body => ?_) start loop
  obtain ⟨dead, net₃, asking, afterAsk⟩ := body.bind
  obtain ⟨answer, rfl⟩ := returns_query.mp asking
  split at afterAsk
  · rename_i isDead
    obtain ⟨rfl, rfl⟩ := returns_pure.mp afterAsk
    exact ⟨rfl, skip i lt _ w holds (not_live_of_isDead (isDead ▸ answer))⟩
  rename_i alive
  rw [Bool.not_eq_true] at alive
  have live := live_of_isDead (alive ▸ answer)
  obtain ⟨res, net₄, replacing, afterReplace⟩ := afterAsk.bind
  split at afterReplace
  · obtain ⟨rfl, rfl⟩ := returns_pure.mp afterReplace
    exact ⟨rfl, redirect i lt _ w _ _ holds live replacing⟩
  · rename_i notSome
    obtain ⟨rfl, rfl⟩ := returns_pure.mp afterReplace
    cases res with
    | none => exact ⟨rfl, redirect i lt _ w none _ holds live replacing⟩
    | some r => exact absurd rfl (notSome r)

-----------------------------------------------------------------------------------------
-- Replacements
-----------------------------------------------------------------------------------------

/-- Under `val`, the signal `s` may stand for the node `n` of `net`: both are on nodes of the
network, and `s` has the value of `n`. -/
structure Replaces (net : Network) (val : Node → Bool) (n : Node) (s : Signal) : Prop where
  nodeBelow : n.id < net.size
  signalBelow : s.node.id < net.size
  value : s.eval val = val n

theorem Replaces.follows {x : Nat → Bool} {net net' : Network} {val val' : Node → Bool}
    {n : Node} {s : Signal} (replaces : Replaces net val n s)
    (follows : Follows x net val net' val') : Replaces net' val' n s :=
  ⟨Nat.lt_of_lt_of_le replaces.nodeBelow follows.size,
    Nat.lt_of_lt_of_le replaces.signalBelow follows.size,
    by rw [follows.eval replaces.signalBelow, follows.agree n replaces.nodeBelow, replaces.value]⟩

/-- Every substitution recorded in `done` may stand for its node. -/
def Recorded (net : Network) (val : Node → Bool) (done : Std.HashMap Nat Signal) : Prop :=
  ∀ i s, done.get? i = some s → Replaces net val ⟨i⟩ s

theorem Recorded.follows {x : Nat → Bool} {net net' : Network} {val val' : Node → Bool}
    {done : Std.HashMap Nat Signal} (recorded : Recorded net val done)
    (follows : Follows x net val net' val') : Recorded net' val' done :=
  fun i s found => (recorded i s found).follows follows

theorem Recorded.empty (net : Network) (val : Node → Bool) : Recorded net val {} := by
  intro i s found
  simp at found

theorem Recorded.insert {net : Network} {val : Node → Bool} {done : Std.HashMap Nat Signal}
    (recorded : Recorded net val done) {n : Node} {s : Signal} (replaces : Replaces net val n s)
    : Recorded net val (done.insert n.id s) := by
  intro i s' found
  rw [Std.HashMap.get?_insert] at found
  split at found
  · rename_i same
    cases found
    have : n = ⟨i⟩ := by
      cases n
      simp only [beq_iff_eq] at same
      rw [same]
    rw [← this]
    exact replaces
  · exact recorded i s' found

-----------------------------------------------------------------------------------------
-- Following a replacement
-----------------------------------------------------------------------------------------

/-- Following a replacement through the recorded substitutions, and building `old` again from
its fan-ins where none is recorded, ends on a signal that still stands for `old`. -/
theorem Sound.resolveReplacement {x : Nat → Bool} {old : Node} {done : Std.HashMap Nat Signal}
    : ∀ (fuel : Nat) {net net' : Network} {val : Node → Bool} {new res : Signal},
      net.Sound → net.Consistent x val → net.Live old → Recorded net val done →
      Replaces net val old new →
      Returns (Network.resolveReplacement old done fuel new) net res net' →
      ∃ val', Follows x net val net' val' ∧ Replaces net' val' old res
  | 0, _, _, _, _, _, _, _, _, _, _, run => by
      simp [Network.resolveReplacement] at run
  | fuel + 1, net, net', val, new, res, sound, consistent, oldLive, recorded, replaces, run => by
      unfold Network.resolveReplacement at run
      obtain ⟨dead, net₁, asking, afterAsk⟩ := run.bind
      obtain ⟨answer, rfl⟩ := returns_query.mp asking
      split at afterAsk
      · -- the replacement is live
        obtain ⟨rfl, rfl⟩ := returns_pure.mp afterAsk
        exact ⟨val, Follows.refl sound consistent, replaces⟩
      split at afterAsk
      · -- a dead replacement follows the substitution recorded for its node
        rename_i s found
        have step := recorded _ s found
        refine Sound.resolveReplacement fuel sound consistent oldLive recorded
          ⟨replaces.nodeBelow, ?_, ?_⟩ afterAsk
        · rw [Signal.node_xor]
          exact step.signalBelow
        · rw [Signal.eval_xor, step.value, ← replaces.value]
          rfl
      · -- without one, `old` is built again from its fan-ins
        obtain ⟨d, net₂, reading, afterRead⟩ := afterAsk.bind
        obtain ⟨read, rfl⟩ := returns_query.mp reading
        dsimp only at afterRead
        split at afterRead
        · obtain ⟨_, _, failing, _⟩ := afterRead.bind
          simp at failing
        rename_i isGate
        obtain ⟨s, net₃, building, afterBuild⟩ := afterRead.bind
        have gate := gateFanins_of_data read (by simpa using isGate) oldLive
        have below := sound.faninsBelow old d.fanins gate
        obtain ⟨sound₃, grows, sBelow⟩ := sound.createMaj below building
        obtain ⟨val₃, follows, sValue⟩ := sound.follows_createMaj below building consistent
        have rebuilt : Replaces net₃ val₃ old s := by
          refine ⟨Nat.lt_of_lt_of_le replaces.nodeBelow follows.size, sBelow, ?_⟩
          rw [sValue, follows.agree old replaces.nodeBelow, consistent.gates old d.fanins gate]
        obtain ⟨val', follows', replaces'⟩ := Sound.resolveReplacement fuel sound₃
          follows.consistent (grows.live old oldLive) (recorded.follows follows) rebuilt afterBuild
        exact ⟨val', follows.trans follows', replaces'⟩

-----------------------------------------------------------------------------------------
-- The work of a substitution
-----------------------------------------------------------------------------------------

/-- What the work of a substitution keeps of the network `net₀` under `val₀` it started from:
`net` under `val` is sound and consistent, keeps the inputs, the value of every node of `net₀`
and of every output, and every pending and every recorded substitution may stand for its
node. -/
structure Tracks (x : Nat → Bool) (net₀ : Network) (val₀ : Node → Bool) (net : Network)
    (val : Node → Bool) (work : List (Node × Signal)) (done : Std.HashMap Nat Signal) : Prop where
  sound : net.Sound
  consistent : net.Consistent x val
  size : net₀.size ≤ net.size
  agree : ∀ n : Node, n.id < net₀.size → val n = val₀ n
  inputs : net.inputs = net₀.inputs
  outputs : ∀ j : Nat,
    (net.outputs[j]?).map (Signal.eval val) = (net₀.outputs[j]?).map (Signal.eval val₀)
  pending : ∀ e ∈ work, Replaces net val e.1 e.2
  recorded : Recorded net val done

section Tracks

variable {x : Nat → Bool} {net₀ : Network} {val₀ : Node → Bool}

/-- The work starts on a sound network, with one substitution pending. -/
theorem Tracks.start (sound : net₀.Sound) (consistent : net₀.Consistent x val₀) {old : Node}
    {new : Signal} (replaces : Replaces net₀ val₀ old new)
    : Tracks x net₀ val₀ net₀ val₀ [(old, new)] {} :=
  ⟨sound, consistent, Nat.le_refl _, fun _ _ => rfl, rfl, fun _ => rfl,
    fun e member => by rw [List.mem_singleton.mp member]; exact replaces, Recorded.empty _ _⟩

/-- The substitution on top of the stack may stand for its node. -/
theorem Tracks.pop {net : Network} {val : Node → Bool} {old : Node} {new : Signal}
    {work : List (Node × Signal)} {done : Std.HashMap Nat Signal}
    (tracks : Tracks x net₀ val₀ net val ((old, new) :: work) done)
    : Tracks x net₀ val₀ net val work done ∧ Replaces net val old new :=
  ⟨{ tracks with pending := fun e member => tracks.pending e (List.mem_cons_of_mem _ member) },
    tracks.pending (old, new) List.mem_cons_self⟩

/-- A substitution that may stand for its node can be pushed. -/
theorem Tracks.push {net : Network} {val : Node → Bool} {work : List (Node × Signal)}
    {done : Std.HashMap Nat Signal} (tracks : Tracks x net₀ val₀ net val work done) {p : Node}
    {r : Signal} (replaces : Replaces net val p r)
    : Tracks x net₀ val₀ net val ((p, r) :: work) done := by
  refine { tracks with pending := fun e member => ?_ }
  rcases List.mem_cons.mp member with rfl | member
  · exact replaces
  · exact tracks.pending e member

/-- A substitution that may stand for its node can be recorded. -/
theorem Tracks.record {net : Network} {val : Node → Bool} {work : List (Node × Signal)}
    {done : Std.HashMap Nat Signal} (tracks : Tracks x net₀ val₀ net val work done) {n : Node}
    {s : Signal} (replaces : Replaces net val n s)
    : Tracks x net₀ val₀ net val work (done.insert n.id s) :=
  { tracks with recorded := tracks.recorded.insert replaces }

/-- A step that the network follows keeps the work on track. -/
theorem Tracks.follows {net net' : Network} {val val' : Node → Bool}
    {work : List (Node × Signal)} {done : Std.HashMap Nat Signal}
    (tracks : Tracks x net₀ val₀ net val work done) (follows : Follows x net val net' val')
    : Tracks x net₀ val₀ net' val' work done where
  sound := follows.sound
  consistent := follows.consistent
  size := Nat.le_trans tracks.size follows.size
  agree n lt := (follows.agree n (Nat.lt_of_lt_of_le lt tracks.size)).trans (tracks.agree n lt)
  inputs := follows.inputs.trans tracks.inputs
  outputs j := by
    rw [follows.outputs, ← tracks.outputs j]
    cases found : net.outputs[j]? with
    | none => rfl
    | some s =>
        have below := tracks.sound.outputsBelow s (Array.mem_of_getElem? found)
        simp only [Option.map_some, follows.eval below]
  pending e member := (tracks.pending e member).follows follows
  recorded := tracks.recorded.follows follows

/-- Moving the outputs off a node onto a signal that stands for it keeps the work on track, and
the signal still stands for the node. -/
theorem Tracks.redirectOutputs {net net' : Network} {val : Node → Bool}
    {work : List (Node × Signal)} {done : Std.HashMap Nat Signal} {old : Node} {new : Signal}
    {u : Unit} (tracks : Tracks x net₀ val₀ net val work done) (replaces : Replaces net val old new)
    (run : Returns (Network.redirectOutputs old new) net u net')
    : Tracks x net₀ val₀ net' val work done ∧ Replaces net' val old new := by
  obtain ⟨sound', table, inputs, gates, outputs⟩ :=
    tracks.sound.redirectOutputs replaces.signalBelow run
  have size : net'.size = net.size := by simp only [Network.size, table]
  have follows : ∀ n s, Replaces net val n s → Replaces net' val n s := fun n s r =>
    ⟨size ▸ r.nodeBelow, size ▸ r.signalBelow, r.value⟩
  refine ⟨{
    sound := sound'
    consistent := ⟨tracks.consistent.constant, fun i n input => tracks.consistent.inputs i n
      (inputs ▸ input), fun g f gate => tracks.consistent.gates g f ((gates g) ▸ gate)⟩
    size := size ▸ tracks.size
    agree := tracks.agree
    inputs := inputs.trans tracks.inputs
    outputs := fun j => ?_
    pending := fun e member => follows _ _ (tracks.pending e member)
    recorded := fun i s found => follows _ _ (tracks.recorded i s found) },
    follows _ _ replaces⟩
  rw [outputs, ← tracks.outputs j, Option.map_map]
  congr 1
  funext s
  exact eval_redirect replaces.value s

/-- A run of the substitution loop keeps the work on track, and ends with none pending. -/
theorem Tracks.substituteLoop : ∀ (fuel : Nat) {net net' : Network} {val : Node → Bool}
    {work : List (Node × Signal)} {done : Std.HashMap Nat Signal} {u : Unit},
    Tracks x net₀ val₀ net val work done →
    Returns (Network.substituteLoop fuel work done) net u net' →
    ∃ val' done', Tracks x net₀ val₀ net' val' [] done'
  | 0, _, _, _, _, _, _, _, run => by
      simp [Network.substituteLoop] at run
  | fuel + 1, net, net', val, [], done, u, tracks, run => by
      obtain ⟨-, rfl⟩ := returns_pure.mp run
      exact ⟨val, done, tracks⟩
  | fuel + 1, net, net', val, (old, new) :: work, done, u, tracks, run => by
      unfold Network.substituteLoop at run
      obtain ⟨tracks, replaces⟩ := tracks.pop
      obtain ⟨dead, net₁, asking, afterAsk⟩ := run.bind
      obtain ⟨answer, rfl⟩ := returns_query.mp asking
      split at afterAsk
      · -- a node already taken out needs no substitution
        exact Tracks.substituteLoop fuel tracks afterAsk
      rename_i alive
      rw [Bool.not_eq_true] at alive
      rw [alive] at answer
      have oldLive : net₁.Live old := live_of_isDead answer
      -- the replacement is followed to a live signal
      obtain ⟨new', net₂, resolving, afterResolve⟩ := afterAsk.bind
      obtain ⟨val₂, follows₂, replaces₂⟩ := tracks.sound.resolveReplacement _ tracks.consistent
        oldLive tracks.recorded replaces resolving
      have tracks₂ := tracks.follows follows₂
      split at afterResolve
      · exact Tracks.substituteLoop fuel tracks₂ afterResolve
      obtain ⟨_, net₃, logging, afterLog⟩ := afterResolve.bind
      rw [returns_log.mp logging] at afterLog
      -- the outputs move
      obtain ⟨_, net₄, redirecting, afterRedirect⟩ := afterLog.bind
      obtain ⟨tracks₄, replaces₄⟩ := tracks₂.redirectOutputs replaces₂ redirecting
      -- every parent recorded for `old` is a gate
      obtain ⟨ps, net₅, reading, afterRead⟩ := afterRedirect.bind
      obtain ⟨read, same⟩ := returns_query.mp reading
      rw [same] at afterRead
      obtain ⟨r, found, rfl⟩ := parents_eq_ok.mp read
      have parentGates : ∀ p ∈ sortedUnique r.parents,
          ∃ d, net₄.table.valueAt p.id = some d ∧ d.isGate = true := fun p member =>
        tracks₄.sound.parentsGates old r p (refsOf_eq_ok.mp found).2 (mem_sortedUnique.mp member)
      -- the parents are redirected one by one; each stays a gate until its turn
      obtain ⟨work', net₆, loop, afterLoop⟩ := afterRead.bind
      have looped := redirectParents_induction
        (fun _ net w => ∃ val, Tracks x net₀ val₀ net val w done ∧ Replaces net val old new' ∧
          KeepsGateRecords net₄ net) ⟨val₂, tracks₄, replaces₄, KeepsGateRecords.refl _⟩
        (fun _ _ _ _ holds _ => holds) ?_ loop
      · -- the node is taken out, and its substitution recorded
        obtain ⟨val₆, tracks₆, replaces₆, -⟩ := looped
        obtain ⟨_, net₇, takingOut, rest⟩ := afterLoop.bind
        obtain ⟨sound₇, shrinks⟩ := tracks₆.sound.takeOutNode takingOut
        have follows₇ := shrinks.follows sound₇ tracks₆.consistent
        exact Tracks.substituteLoop fuel
          ((tracks₆.follows follows₇).record (replaces₆.follows follows₇)) rest
      rintro i lt net₅ w res net₈ ⟨val₅, tracks₅, replaces₅, kept₅⟩ live replacing
      obtain ⟨d₄, value₄, isGate₄⟩ := parentGates _ (List.getElem_mem lt)
      obtain ⟨d, value, isGate⟩ := kept₅ _ d₄ value₄ isGate₄
      have gate := gateFanins_of_valueAt value isGate live
      obtain ⟨val₈, follows₈, result⟩ := tracks₅.sound.replaceInNode gate replaces₅.signalBelow
        replacing tracks₅.consistent replaces₅.value
      have kept₈ := kept₅.trans follows₈.gateRecords
      cases res with
      | none => exact ⟨val₈, tracks₅.follows follows₈, replaces₅.follows follows₈, kept₈⟩
      | some s =>
          -- the parent is itself replaced
          obtain ⟨sBelow, sValue⟩ := result s rfl
          have pBelow := lt_size_of_gateFanins gate
          exact ⟨val₈, (tracks₅.follows follows₈).push ⟨Nat.lt_of_lt_of_le pBelow follows₈.size,
            sBelow, sValue.trans (follows₈.agree _ pBelow).symm⟩, replaces₅.follows follows₈, kept₈⟩

end Tracks

end Network

end MajorityGraph
