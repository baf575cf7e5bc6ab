import MajorityGraph.Proofs.Network.Bookkeeping

/-!
One substitution step of the work list, seen from the gates it leaves behind
(`Coherent.substitutes`).
-/

namespace MajorityGraph

namespace Network

open NetM

variable {net net' : Network}

-----------------------------------------------------------------------------------------
-- Following the recorded substitutions
-----------------------------------------------------------------------------------------

/-- One step of following a replacement: a signal on a node that is no longer live moves on to
the substitution recorded for the node, in the polarity of the signal. -/
def ChaseStep (net : Network) (done : Std.HashMap Nat Signal) (s t : Signal) : Prop :=
  ¬ net.Live s.node ∧ ∃ u, done.get? s.node.id = some u ∧ t = u.xor s.isComplemented

/-- The signals that a replacement leads to through the recorded substitutions. -/
def Leads (net : Network) (done : Std.HashMap Nat Signal) : Signal → Signal → Prop :=
  Relation.ReflTransGen (net.ChaseStep done)

section Leads

variable {done : Std.HashMap Nat Signal} {r t : Signal}

/-- A signal from which no step leads on leads only to itself. -/
theorem Leads.eq_of_stuck (chase : net.Leads done r t) (stuck : ∀ u, ¬ net.ChaseStep done r u)
    : t = r := by
  cases chase using Relation.ReflTransGen.head_induction_on with
  | refl => rfl
  | head step _ => exact absurd step (stuck _)

theorem Leads.eq_of_live (chase : net.Leads done r t) (live : net.Live r.node) : t = r :=
  chase.eq_of_stuck fun _ step => step.1 live

/-- Two networks that agree on the live nodes below `size` follow every replacement below `size`
alike, when every recorded substitution is on a node below `size`. -/
theorem Leads.congr {size : Nat} (lives : ∀ n : Node, n.id < size → (net'.Live n ↔ net.Live n))
    (below : ∀ k u, done.get? k = some u → u.node.id < size) (rBelow : r.node.id < size)
    (chase : net'.Leads done r t) : net.Leads done r t ∧ t.node.id < size := by
  induction chase using Relation.ReflTransGen.head_induction_on with
  | refl => exact ⟨Relation.ReflTransGen.refl, rBelow⟩
  | @head a c step _ ih =>
      obtain ⟨dead, u, found, rfl⟩ := step
      obtain ⟨rest, tBelow⟩ := ih (by rw [Signal.node_xor]; exact below _ u found)
      exact ⟨Relation.ReflTransGen.head ⟨fun live => dead ((lives _ rBelow).mpr live), u, found, rfl⟩
        rest, tBelow⟩

/-- Every recorded substitution is for a node of the network that is dead or no gate, and names
a node of the network. -/
def Settled (net : Network) (done : Std.HashMap Nat Signal) : Prop :=
  ∀ k u, done.get? k = some u →
    k < net.size ∧ u.node.id < net.size ∧ (¬ net.Live ⟨k⟩ ∨ net.gateFanins ⟨k⟩ = none)

section Substituted

variable {old : Node} {s : Signal}
  (dies : ∀ n : Node, n.id < net.size → net.Live n → ¬ net'.Live n → (net.gateFanins n).isSome)
  (settled : net.Settled done)
include dies settled

/-- After `old` is substituted by `s`, where only live gates died, no node that died or is new
has a record, but `old`. -/
theorem unrecorded_of_died {n : Node} (alive : n.id < net.size → net.Live n)
    (dead : ¬ net'.Live n) (other : n ≠ old) : (done.insert old.id s).get? n.id = none := by
  rw [Std.HashMap.get?_insert, if_neg (by simpa using fun same => other (Node.eq_of_id_eq same.symm))]
  cases found : done.get? n.id with
  | none => rfl
  | some u =>
      obtain ⟨below, -, settledN⟩ := settled _ u found
      rcases settledN with dead' | notGate
      · exact absurd (alive below) dead'
      · have := dies n below (alive below) dead
        rw [notGate] at this
        cases this

/-- The replacement `s` of `old`, live before, leads nowhere but to itself. -/
theorem Leads.of_replacement (sLive : net.Live s.node) (apart : s.node ≠ old) {b : Bool}
    (chase : net'.Leads (done.insert old.id s) (s.xor b) t) : t = s.xor b := by
  refine chase.eq_of_stuck fun v step => ?_
  obtain ⟨sDead, v', found, -⟩ := step
  rw [Signal.node_xor] at sDead found
  rw [unrecorded_of_died dies settled (fun _ => sLive) sDead apart] at found
  cases found

/-- Following a replacement after `old` is substituted by `s`: the walk ends where it ended
before, away from `old`, or it reached `old` and moves on to `s`. -/
theorem Leads.substituted (oldDead : ¬ net'.Live old) (sLive : net.Live s.node)
    (apart : s.node ≠ old) (rBelow : r.node.id < net.size)
    (chase : net'.Leads (done.insert old.id s) r t) (live : net'.Live t.node)
    : (net.Leads done r t ∧ t.node ≠ old) ∨
        ∃ m, net.Leads done r m ∧ m.node = old ∧ t = s.xor m.isComplemented := by
  induction chase using Relation.ReflTransGen.head_induction_on with
  | refl =>
      refine .inl ⟨Relation.ReflTransGen.refl, fun onOld => oldDead (onOld ▸ live)⟩
  | @head a c step rest ih =>
      obtain ⟨dead, u, found, rfl⟩ := step
      by_cases onOld : a.node = old
      · -- the walk reaches `old` and moves on to `s`, where it stops
        rw [onOld, Std.HashMap.get?_insert, if_pos (BEq.rfl), Option.some.injEq] at found
        subst found
        exact .inr ⟨a, Relation.ReflTransGen.refl, onOld,
          Leads.of_replacement dies settled sLive apart rest⟩
      · have other : (old.id == a.node.id) = false := by
          simpa using fun same => onOld (Node.eq_of_id_eq same.symm)
        rw [Std.HashMap.get?_insert, if_neg (by simpa using other)] at found
        have wasDead : ¬ net.Live a.node := fun alive => by
          have := unrecorded_of_died (s := s) dies settled (fun _ => alive) dead onOld
          rw [Std.HashMap.get?_insert, if_neg (by simpa using other), found] at this
          cases this
        have step₁ : net.ChaseStep done a (u.xor a.isComplemented) := ⟨wasDead, u, found, rfl⟩
        rcases ih (by rw [Signal.node_xor]; exact (settled _ u found).2.1) with ⟨chase₁, tOld⟩ |
          ⟨m, chase₁, mOld, rfl⟩
        · exact .inl ⟨chase₁.head step₁, tOld⟩
        · exact .inr ⟨m, chase₁.head step₁, mOld, rfl⟩

/-- After `old` is substituted by `s`, a replacement that was live before, or is new, leads to a
live node only as itself or, when it is `old`, through `s`. -/
theorem Leads.of_handed (sLive : net.Live s.node) (apart : s.node ≠ old)
    (alive : r.node.id < net.size → net.Live r.node)
    (chase : net'.Leads (done.insert old.id s) r t)
    : t = r ∨ (r.node = old ∧ t = s.xor r.isComplemented) := by
  cases chase using Relation.ReflTransGen.head_induction_on with
  | refl => exact .inl rfl
  | head step rest =>
      obtain ⟨dead, u, found, rfl⟩ := step
      by_cases onOld : r.node = old
      · rw [onOld, Std.HashMap.get?_insert, if_pos (BEq.rfl), Option.some.injEq] at found
        subst found
        exact .inr ⟨onOld, Leads.of_replacement dies settled sLive apart rest⟩
      · rw [unrecorded_of_died dies settled alive dead onOld] at found
        cases found

end Substituted

end Leads

-----------------------------------------------------------------------------------------
-- Replacements related to a gate
-----------------------------------------------------------------------------------------

/-- `t` may stand in for the gate `p`: it is one of the fan-in nodes of `p`, or a node over the
same fan-in nodes. -/
def Related (net : Network) (p t : Node) : Prop :=
  t ∈ net.faninNodes p ∨ (net.faninNodes t).Perm (net.faninNodes p)

/-- No node is a fan-in node of itself. -/
theorem Coherent.not_mem_faninNodes_self (coherent : net.Coherent) (n : Node)
    : n ∉ net.faninNodes n :=
  fun member => coherent.not_reaches_of_mem_faninNodes member (.refl n)

/-- A related node other than the gate lies outside the gate's fan-out, so it cannot reach it. -/
theorem Coherent.not_reaches_of_related (coherent : net.Coherent) {p t : Node}
    (related : net.Related p t) (apart : t ≠ p) : ¬ net.Reaches t p := by
  rcases related with member | same
  · exact coherent.not_reaches_of_mem_faninNodes member
  · exact coherent.not_reaches_of_faninNodes_subset apart fun n member => same.subset member

/-- A node related to `p` is not `p` when it is a fan-in node of `p`, or when it is linked while
`p` is not. -/
theorem Coherent.ne_of_related (coherent : net.Coherent) {p t : Node}
    (related : t ∈ net.faninNodes p ∨ net.table.linkedAt t.id = true)
    (unlinked : net.table.linkedAt p.id = false) : t ≠ p := by
  rintro rfl
  rcases related with member | linked
  · exact coherent.not_mem_faninNodes_self t member
  · rw [unlinked] at linked
    cases linked

/-- A signal on a node other than the gate `z` that stands for the majority over the fan-ins of
`z`, and so may replace it. -/
def ReplacedBy (net : Network) (z : Node) (r : Signal) : Prop :=
  ∃ f, net.gateFanins z = some f ∧ r.node ≠ z ∧ net.MajorityOf f r

/-- A majority over a gate's fan-ins is on one of its fan-in nodes, or on a linked gate over the
same nodes. -/
theorem MajorityOf.nodes {g : Node} {f : Fanins} {r : Signal} (gate : net.gateFanins g = some f)
    (majority : net.MajorityOf f r)
    : r.node ∈ net.faninNodes g ∨
        ((net.faninNodes r.node).Perm (net.faninNodes g) ∧ net.table.linkedAt r.node.id = true) := by
  rw [faninNodes_of_gateFanins gate]
  rcases majority with ⟨member, -⟩ | ⟨h, gateR, perm, linked⟩
  · exact .inl (List.mem_map_of_mem member)
  · exact .inr ⟨by rw [faninNodes_of_gateFanins gateR]; exact Signal.nodes_perm_of_perm_xor perm,
      linked⟩

theorem ReplacedBy.nodes {z : Node} {r : Signal} (replaced : net.ReplacedBy z r)
    : r.node ∈ net.faninNodes z ∨
        ((net.faninNodes r.node).Perm (net.faninNodes z) ∧ net.table.linkedAt r.node.id = true) :=
  let ⟨_, gate, _, majority⟩ := replaced
  majority.nodes gate

/-- The gate `g` of `net` is a gate of `net'` over its fan-ins redirected from `old` to `s`, in
some order. -/
def RedirectsGate (net net' : Network) (old : Node) (s : Signal) (g : Node) : Prop :=
  ∃ f f', net.gateFanins g = some f ∧ net'.gateFanins g = some f' ∧
    f'.toList.Perm (f.toList.map (redirectSignal old s))

theorem RedirectsGate.faninNodes {old g : Node} {s : Signal} (redirects : net.RedirectsGate net' old s g)
    : (net'.faninNodes g).Perm ((net.faninNodes g).map (redirectNode old s.node)) := by
  obtain ⟨f, f', gate, gate', perm⟩ := redirects
  rw [faninNodes_of_gateFanins gate, faninNodes_of_gateFanins gate']
  exact (perm.map Signal.node).trans (List.Perm.of_eq (nodes_redirect old s f))

/-- Fan-ins off `old` are left as they are by the redirection. -/
theorem map_redirectSignal_of_not_mem {old : Node} {s : Signal} {l : List Signal}
    (unused : old ∉ l.map Signal.node) : l.map (redirectSignal old s) = l := by
  conv_rhs => rw [← List.map_id l]
  refine List.map_congr_left fun x member => if_neg fun onOld => unused ?_
  exact onOld ▸ List.mem_map_of_mem member

section View

variable {old : Node} {s : Node}

/-- A relation between nodes that both keep their fan-in nodes, up to redirecting `old` to `s`,
survives the redirection when the replacement is not `old`. -/
theorem Related.redirect {p t : Node} (related : net.Related p t) (tOld : t ≠ old)
    (pView : (net'.faninNodes p).Perm ((net.faninNodes p).map (redirectNode old s)))
    (tView : (net'.faninNodes t).Perm ((net.faninNodes t).map (redirectNode old s)))
    : net'.Related p t := by
  rcases related with member | same
  · refine .inl (pView.mem_iff.mpr ?_)
    rw [← redirectNode_of_ne tOld]
    exact List.mem_map_of_mem member
  · exact .inr (tView.trans ((same.map _).trans pView.symm))

/-- A node related to `old` is related, after the redirection, to what `old` is replaced by,
when that replacement is related to `old`. -/
theorem Related.redirect_old {p : Node} (related : net.Related p old) (replaced : net.Related old s)
    (sOld : s ≠ old) (pView : (net'.faninNodes p).Perm ((net.faninNodes p).map (redirectNode old s)))
    (sView : (net'.faninNodes s).Perm ((net.faninNodes s).map (redirectNode old s)))
    : net'.Related p s := by
  rcases related with member | same
  · have moved := List.mem_map_of_mem (f := redirectNode old s) member
    rw [redirectNode_old] at moved
    exact .inl (pView.mem_iff.mpr moved)
  · rcases replaced with member | same'
    · exact Related.redirect (.inl (same.subset member)) sOld pView sView
    · exact Related.redirect (.inr (same'.trans same)) sOld pView sView

end View

theorem not_mem_map_redirectNode {old s : Node} (apart : s ≠ old) (l : List Node)
    : old ∉ l.map (redirectNode old s) := by
  intro member
  obtain ⟨n, _, same⟩ := List.mem_map.mp member
  unfold redirectNode at same
  split at same
  · exact apart same
  · rename_i other
    exact other same

/-- Dropping adjacent repeats from a list sorted by id, one node at a time from the right,
leaves the ids strictly rising and keeps only members. -/
theorem foldr_dedup_rising {step : Node → List Node → List Node}
    (nil : ∀ n, step n [] = [n]) (same : ∀ n t, step n (n :: t) = n :: t)
    (other : ∀ n m t, m ≠ n → step n (m :: t) = n :: m :: t)
    : ∀ l : List Node, l.Pairwise (fun a b => a.id ≤ b.id) →
      (l.foldr step []).Pairwise (fun a b => a.id < b.id) ∧ ∀ x ∈ l.foldr step [], x ∈ l
  | [], _ => by simp
  | n :: rest, sorted => by
      obtain ⟨below, sortedRest⟩ := List.pairwise_cons.mp sorted
      obtain ⟨risingRest, membersRest⟩ := foldr_dedup_rising nil same other rest sortedRest
      rw [List.foldr_cons]
      generalize kept : rest.foldr step [] = acc at risingRest membersRest
      cases acc with
      | nil =>
          refine ⟨by rw [nil]; exact List.pairwise_singleton _ _, fun x member => ?_⟩
          rw [nil, List.mem_singleton] at member
          rw [member]
          exact List.mem_cons_self
      | cons m t =>
          by_cases repeated : m = n
          · subst repeated
            rw [same]
            exact ⟨risingRest, fun x member => List.mem_cons_of_mem _ (membersRest x member)⟩
          · rw [other n m t repeated]
            -- every kept node after `n` is at least `m`, whose id exceeds that of `n`
            have mAbove : n.id < m.id :=
              Nat.lt_of_le_of_ne (below m (membersRest m List.mem_cons_self))
                fun ids => repeated (Node.eq_of_id_eq ids.symm)
            refine ⟨List.pairwise_cons.mpr ⟨fun x member => ?_, risingRest⟩, fun x member => ?_⟩
            · rcases List.mem_cons.mp member with rfl | later
              · exact mAbove
              · exact Nat.lt_trans mAbove (List.rel_of_pairwise_cons risingRest later)
            · rcases List.mem_cons.mp member with rfl | later
              · exact List.mem_cons_self
              · exact List.mem_cons_of_mem _ (membersRest x later)

/-- The parents visited by a substitution are visited once each: sorting by id and dropping
adjacent repeats leaves the ids strictly rising. -/
theorem sortedUnique_nodup (ns : Array Node) : (sortedUnique ns).Nodup := by
  unfold sortedUnique
  dsimp only
  have sorted := @List.pairwise_mergeSort _ (fun a b : Node => decide (a.id ≤ b.id))
    (fun a b c ab bc => by simp only [decide_eq_true_eq] at *; omega)
    (fun a b => by simp only [Bool.or_eq_true, decide_eq_true_eq]; omega) ns.toList
  -- the fold's step is read off the goal, so the lemma's hypotheses are about it
  refine List.Pairwise.imp ?_ (foldr_dedup_rising ?_ ?_ ?_ _ ?_).1
  · intro a b lt same
    rw [same] at lt
    omega
  · intro n
    rfl
  · intro n t
    simp
  · intro n m t apart
    simp [apart]
  · exact sorted.imp fun le => by simpa using le

-----------------------------------------------------------------------------------------
-- Redirecting the parents
-----------------------------------------------------------------------------------------

/-- Where redirecting the parents of `old` to `s` stands once the gates `visited` are done,
starting from `net₀`: the network is coherent and ranked with `s` below `old`; the old nodes keep
their liveness; new gates are linked, over the nodes of a visited gate; the gates not visited
keep their fan-ins and links; a visited gate has its fan-ins redirected and is linked again or
handed back in `pushed`; and each gate handed back is left unlinked, with a live replacement that
may stand in for it. -/
structure Redirecting (net₀ net : Network) (old : Node) (s : Signal) (visited : List Node)
    (pushed : List (Node × Signal)) : Prop where
  coherent : net.Coherent
  ranked : ∃ rank, net.Ranked rank ∧ rank s.node < rank old
  size : net₀.size ≤ net.size
  live : ∀ n : Node, n.id < net₀.size → (net.Live n ↔ net₀.Live n)
  fresh : ∀ g f, net₀.size ≤ g.id → net.gateFanins g = some f →
    net.table.linkedAt g.id = true ∧ ∃ p ∈ visited, (net.faninNodes g).Perm (net.faninNodes p)
  kept : ∀ g : Node, g.id < net₀.size → g ∉ visited →
    net.gateFanins g = net₀.gateFanins g ∧ net.table.linkedAt g.id = net₀.table.linkedAt g.id
  redirected : ∀ g ∈ visited, net₀.RedirectsGate net old s g ∧
    (net.table.linkedAt g.id = true ∨ g ∈ pushed.map Prod.fst)
  pushed : ∀ z r, (z, r) ∈ pushed → z ∈ visited ∧ net.table.linkedAt z.id = false ∧
    net.Live r.node ∧ net.ReplacedBy z r
  outputs : net.outputs = net₀.outputs

section Redirecting

variable {net₀ : Network} {old : Node} {s : Signal}

theorem Redirecting.start (coherent : net₀.Coherent) {rank : Node → Nat} (ranked : net₀.Ranked rank)
    (lower : rank s.node < rank old) : Redirecting net₀ net₀ old s [] [] where
  coherent := coherent
  ranked := ⟨rank, ranked, lower⟩
  size := Nat.le_refl _
  live _ _ := Iff.rfl
  fresh _ _ beyond gate := absurd (lt_size_of_gateFanins gate) (Nat.not_lt.mpr beyond)
  kept _ _ _ := ⟨rfl, rfl⟩
  redirected _ member := absurd member List.not_mem_nil
  pushed _ _ member := absurd member List.not_mem_nil
  outputs := rfl

/-- Redirecting one more parent `q` of `old`, a live gate not visited yet, keeps the account:
`q` is visited, and handed back when `replaceInNode` returns a replacement for it. -/
theorem Redirecting.replaceInNode {visited : List Node} {pushed : List (Node × Signal)}
    (redirecting : Redirecting net₀ net old s visited pushed) (sLive : net₀.Live s.node)
    (sBelow : s.node.id < net₀.size) (apart : s.node ≠ old) (oldBelow : old.id < net₀.size)
    (visitedBelow : ∀ g ∈ visited, g.id < net₀.size) {q : Node} (qBelow : q.id < net₀.size)
    (fresh : q ∉ visited) (uses : old ∈ net₀.faninNodes q) {res : Option Signal}
    (run : Returns (Network.replaceInNode q old s) net res net')
    : Redirecting net₀ net' old s (q :: visited) ((res.map (q, ·)).toList ++ pushed) := by
  obtain ⟨f, gate₀, -⟩ := mem_faninNodes.mp uses
  obtain ⟨gate, -⟩ := redirecting.kept q qBelow fresh
  rw [← gate] at gate₀
  obtain ⟨rank, ranked, lower⟩ := redirecting.ranked
  have sLive' := (redirecting.live s.node sBelow).mpr sLive
  obtain ⟨g, signals, coherent', rewires, relinked, handed⟩ :=
    redirecting.coherent.replaceInNode gate₀ sLive' apart ranked lower run
  have size := redirecting.size
  have oldBelow' : old.id < net.size := Nat.lt_of_lt_of_le oldBelow size
  have sBelow' : s.node.id < net.size := Nat.lt_of_lt_of_le sBelow size
  have qBelow' : q.id < net.size := Nat.lt_of_lt_of_le qBelow size
  -- `q` is redirected, so its nodes no longer include `old`
  have qRedirects : net₀.RedirectsGate net' old s q :=
    ⟨f, g, by rw [← gate]; exact gate₀, rewires.gate, signals⟩
  have qNodes₀ : net.faninNodes q = net₀.faninNodes q := by
    unfold faninNodes
    rw [(redirecting.kept q qBelow fresh).1]
  have qNodes := qRedirects.faninNodes
  -- every node other than `q` keeps its fan-ins and link
  have same : ∀ h : Node, h.id < net.size → h ≠ q →
      net'.gateFanins h = net.gateFanins h ∧ net'.table.linkedAt h.id = net.table.linkedAt h.id :=
    fun h below other => ⟨rewires.gates h below other,
      rewires.links h.id below fun ids => other (Node.eq_of_id_eq ids)⟩
  have sameNodes : ∀ h : Node, h.id < net.size → h ≠ q → net'.faninNodes h = net.faninNodes h :=
    fun h below other => by unfold faninNodes; rw [(same h below other).1]
  refine {
    coherent := coherent'
    ranked := ?_
    size := Nat.le_trans size rewires.size
    live := fun n below => (rewires.live n (Nat.lt_of_lt_of_le below size)).trans
      (redirecting.live n below)
    fresh := fun h f' beyond gate' => ?_
    kept := fun h below unvisited => ?_
    redirected := fun h member => ?_
    pushed := fun z r member => ?_
    outputs := rewires.outputs.trans redirecting.outputs }
  · obtain ⟨rank', ranked', agree⟩ := rewires.ranked
    exact ⟨rank', ranked', by rw [agree _ sBelow', agree _ oldBelow']; exact lower⟩
  · by_cases old' : h.id < net.size
    · have other : h ≠ q := fun same => by rw [same] at beyond; omega
      rw [(same h old' other).1] at gate'
      obtain ⟨linked, p, visitedP, perm⟩ := redirecting.fresh h f' beyond gate'
      have pOther : p ≠ q := fun same => fresh (same ▸ visitedP)
      have pBelow := Nat.lt_of_lt_of_le (visitedBelow p visitedP) size
      refine ⟨by rw [(same h old' other).2]; exact linked, p, List.mem_cons_of_mem _ visitedP, ?_⟩
      rw [sameNodes h old' other, sameNodes p pBelow pOther]
      exact perm
    · obtain ⟨perm, linked⟩ := rewires.fresh h f' (Nat.not_lt.mp old') gate'
      refine ⟨linked, q, List.mem_cons_self, ?_⟩
      rw [faninNodes_of_gateFanins gate', faninNodes_of_gateFanins rewires.gate]
      exact perm
  · have other : h ≠ q := fun same => unvisited (same ▸ List.mem_cons_self)
    have unvisited' : h ∉ visited := fun member => unvisited (List.mem_cons_of_mem _ member)
    obtain ⟨gateKept, linkKept⟩ := redirecting.kept h below unvisited'
    have below' := Nat.lt_of_lt_of_le below size
    exact ⟨(same h below' other).1.trans gateKept, ((same h below' other).2).trans linkKept⟩
  · rcases List.mem_cons.mp member with rfl | member
    · refine ⟨qRedirects, ?_⟩
      cases res with
      | none => exact .inl (relinked rfl)
      | some r => exact .inr (by simp)
    · have other : h ≠ q := fun same => fresh (same ▸ member)
      obtain ⟨⟨f₀, f₁, gateH₀, gateH, perm⟩, linkH⟩ := redirecting.redirected h member
      have below' := Nat.lt_of_lt_of_le (visitedBelow h member) size
      refine ⟨⟨f₀, f₁, gateH₀, by rw [(same h below' other).1]; exact gateH, perm⟩, ?_⟩
      rw [(same h below' other).2]
      refine linkH.imp_right fun listed => ?_
      simp only [List.map_append, List.mem_append]
      exact .inr listed
  · rcases List.mem_append.mp member with here | earlier
    · -- the gate handed back now
      cases res with
      | none => cases here
      | some r' =>
          simp only [Option.map_some, Option.toList_some, List.mem_singleton, Prod.mk.injEq] at here
          obtain ⟨rfl, rfl⟩ := here
          obtain ⟨unlinked, rLive, apartQ, majority⟩ := handed r rfl
          exact ⟨List.mem_cons_self, unlinked, rLive, g, rewires.gate, apartQ, majority⟩
    · -- a gate handed back before keeps its account: neither it nor a linked replacement is `q`
      obtain ⟨visitedZ, unlinked, rLive, fz, gateZ, apartZ, majority⟩ := redirecting.pushed z r earlier
      have zOther : z ≠ q := fun same => fresh (same ▸ visitedZ)
      have zBelow := Nat.lt_of_lt_of_le (visitedBelow z visitedZ) size
      have rBelow := redirecting.coherent.lt_size_of_live rLive
      refine ⟨List.mem_cons_of_mem _ visitedZ, by rw [(same z zBelow zOther).2]; exact unlinked,
        (rewires.live _ rBelow).mpr rLive, fz, by rw [(same z zBelow zOther).1]; exact gateZ, apartZ, ?_⟩
      rcases majority with trivial | ⟨h, gateR, perm, linked⟩
      · exact .inl trivial
      · have rOther : r.node ≠ q := by
          intro onQ
          have zNodes := (redirecting.redirected z visitedZ).1.faninNodes
          have nodesR : (net.faninNodes q).Perm (net.faninNodes z) := by
            rw [← onQ, faninNodes_of_gateFanins gateR, faninNodes_of_gateFanins gateZ]
            exact Signal.nodes_perm_of_perm_xor perm
          rw [qNodes₀] at nodesR
          exact not_mem_map_redirectNode apart _ (zNodes.mem_iff.mp (nodesR.mem_iff.mp uses))
        exact MajorityOf.congr (.inr ⟨h, gateR, perm, linked⟩) (same r.node rBelow rOther).1
          (same r.node rBelow rOther).2

/-- A gate added while redirecting does not use `old`. -/
theorem Redirecting.fresh_unused {visited : List Node} {pushed : List (Node × Signal)}
    (redirecting : Redirecting net₀ net old s visited pushed) (apart : s.node ≠ old)
    {g : Node} {f : Fanins} (beyond : net₀.size ≤ g.id) (gate : net.gateFanins g = some f)
    : old ∉ net.faninNodes g := fun member => by
  obtain ⟨-, p, visitedP, perm⟩ := redirecting.fresh g f beyond gate
  exact not_mem_map_redirectNode apart _
    ((redirecting.redirected p visitedP).1.faninNodes.mem_iff.mp (perm.mem_iff.mp member))

/-- Only which gates were visited matters, not the order of the visits. -/
theorem Redirecting.revisit {visited visited' : List Node} {pushed : List (Node × Signal)}
    (redirecting : Redirecting net₀ net old s visited pushed)
    (same : ∀ g, g ∈ visited' ↔ g ∈ visited) : Redirecting net₀ net old s visited' pushed :=
  { redirecting with
    fresh := fun g f beyond gate => by
      obtain ⟨linked, p, visitedP, perm⟩ := redirecting.fresh g f beyond gate
      exact ⟨linked, p, (same p).mpr visitedP, perm⟩
    kept := fun g below unvisited => redirecting.kept g below fun member => unvisited ((same g).mpr member)
    redirected := fun g member => redirecting.redirected g ((same g).mp member)
    pushed := fun z r member => by
      obtain ⟨visitedZ, rest⟩ := redirecting.pushed z r member
      exact ⟨(same z).mpr visitedZ, rest⟩ }

/-- A node that uses `old` is a live gate of the network. -/
theorem lt_size_of_mem_faninNodes {g n : Node} (member : n ∈ net.faninNodes g) : g.id < net.size := by
  obtain ⟨f, gate, -⟩ := mem_faninNodes.mp member
  exact lt_size_of_gateFanins gate

theorem live_of_mem_faninNodes {g n : Node} (member : n ∈ net.faninNodes g) : net.Live g := by
  obtain ⟨f, gate, -⟩ := mem_faninNodes.mp member
  exact live_of_gateFanins gate

/-- In a list without duplicates, the parent at `i` is not among the parents before it. -/
theorem getElem_not_mem_take {ps : List Node} (nodup : ps.Nodup) {i : Nat} (lt : i < ps.length) :
    ps[i] ∉ ps.take i := fun member => by
  have split := List.take_append_drop i ps ▸ nodup
  have later : ps[i] ∈ ps.drop i := List.mem_iff_getElem.mpr ⟨0, by simp; omega, by simp⟩
  exact List.disjoint_of_nodup_append split member later

/-- Visiting the next parent of a list without duplicates: it is not among the parents visited
before it, and joins them. -/
theorem Redirecting.visit {ps : List Node} {pushed : List (Node × Signal)} {i : Nat}
    (redirecting : Redirecting net₀ net old s (ps.take i) pushed) (sLive : net₀.Live s.node)
    (sBelow : s.node.id < net₀.size) (apart : s.node ≠ old) (oldBelow : old.id < net₀.size)
    (nodup : ps.Nodup) (parents : ∀ q ∈ ps, old ∈ net₀.faninNodes q) (lt : i < ps.length)
    {res : Option Signal} (run : Returns (Network.replaceInNode ps[i] old s) net res net')
    : Redirecting net₀ net' old s (ps.take (i + 1)) ((res.map (ps[i], ·)).toList ++ pushed) := by
  have uses := parents ps[i] (List.getElem_mem lt)
  have visits : ∀ g, g ∈ ps.take (i + 1) ↔ g ∈ ps[i] :: ps.take i := fun g => by
    rw [List.take_add_one, List.getElem?_eq_getElem lt, Option.toList_some, List.mem_append,
      List.mem_singleton, List.mem_cons, or_comm]
  have visitedBelow : ∀ g ∈ ps.take i, g.id < net₀.size := fun g member =>
    lt_size_of_mem_faninNodes (parents g (List.mem_of_mem_take member))
  exact (redirecting.replaceInNode sLive sBelow apart oldBelow visitedBelow
    (lt_size_of_mem_faninNodes uses) (getElem_not_mem_take nodup lt) uses run).revisit visits

/-- Redirecting every parent of `old` in turn, each visited once: the loop over the parents
hands back the gates it leaves unlinked on top of the work it started from. -/
theorem Coherent.redirectParents (coherent : net₀.Coherent) {rank : Node → Nat}
    (ranked : net₀.Ranked rank) (lower : rank s.node < rank old) (sLive : net₀.Live s.node)
    (apart : s.node ≠ old) (oldBelow : old.id < net₀.size) {ps : List Node} (nodup : ps.Nodup)
    (parents : ∀ q ∈ ps, old ∈ net₀.faninNodes q) {work work' : List (Node × Signal)}
    (run : Returns (Network.redirectParents old s ps work) net₀ work' net')
    : ∃ pushed, work' = pushed ++ work ∧ Redirecting net₀ net' old s ps pushed := by
  have sBelow := coherent.lt_size_of_live sLive
  -- the parents before position `i` are visited, and their gates handed back lie on the work
  have looped := redirectParents_induction
    (fun i net w => ∃ pushed, w = pushed ++ work ∧ Redirecting net₀ net old s (ps.take i) pushed)
    ⟨[], rfl, Redirecting.start coherent ranked lower⟩ ?_ ?_ run
  · obtain ⟨pushed, grown, redirecting⟩ := looped
    rw [List.take_length] at redirecting
    exact ⟨pushed, grown, redirecting⟩
  · -- every parent is live: it uses `old`, and nothing before it was taken out
    rintro i lt net₁ w ⟨pushed, rfl, redirecting⟩ dead
    have uses := parents ps[i] (List.getElem_mem lt)
    exact absurd ((redirecting.live _ (lt_size_of_mem_faninNodes uses)).mpr
      (live_of_mem_faninNodes uses)) dead
  · rintro i lt net₁ w res net₂ ⟨pushed, rfl, redirecting⟩ - replacing
    exact ⟨_, by simp, redirecting.visit sLive sBelow apart oldBelow nodup parents lt replacing⟩

end Redirecting

-----------------------------------------------------------------------------------------
-- One substitution
-----------------------------------------------------------------------------------------

/-- What substituting `old` by `s` leaves of `net` in `net'`, with `pushed` the gates handed back:
`net'` is coherent and larger; old nodes only die, and only live gates among them, `old` first
when it is a gate; the live old gates have their fan-ins redirected from `old` to `s`, and the
live old nodes that did not use `old` keep their links; new gates are linked, over the
redirected nodes of a gate that used `old`; a live gate left unlinked is handed back, or was
unlinked before and did not use `old`; and a gate handed back used `old`, stays unlinked while
it lives, and its replacement is live before, may stand in for it while both live, or is `old`
itself, over the same nodes as the gate, whose place among its fan-ins `s` takes. -/
structure Substitutes (net net' : Network) (old : Node) (s : Signal)
    (pushed : List (Node × Signal)) : Prop where
  coherent : net'.Coherent
  size : net.size ≤ net'.size
  live : ∀ n : Node, n.id < net.size → net'.Live n → net.Live n
  dies : ∀ n : Node, n.id < net.size → net.Live n → ¬ net'.Live n → (net.gateFanins n).isSome
  oldDies : (net.gateFanins old).isSome → ¬ net'.Live old
  view : ∀ g : Node, g.id < net.size → net'.Live g →
    (net'.faninNodes g).Perm ((net.faninNodes g).map (redirectNode old s.node))
  signals : ∀ g f, g.id < net.size → net'.gateFanins g = some f → net.RedirectsGate net' old s g
  links : ∀ g : Node, g.id < net.size → net'.Live g → old ∉ net.faninNodes g →
    net'.table.linkedAt g.id = net.table.linkedAt g.id
  fresh : ∀ g f, net.size ≤ g.id → net'.gateFanins g = some f → net'.table.linkedAt g.id = true ∧
    ∃ p, old ∈ net.faninNodes p ∧
      (net'.faninNodes g).Perm ((net.faninNodes p).map (redirectNode old s.node))
  unlinked : ∀ g f, g.id < net.size → net'.gateFanins g = some f →
    net'.table.linkedAt g.id = false →
      g ∈ pushed.map Prod.fst ∨ (net.table.linkedAt g.id = false ∧ old ∉ net.faninNodes g)
  handed : ∀ z r, (z, r) ∈ pushed → old ∈ net.faninNodes z ∧ r.node.id < net'.size ∧
    (r.node.id < net.size → net.Live r.node) ∧ (net'.Live z → net'.table.linkedAt z.id = false ∧
      (net'.Live r.node → net'.ReplacedBy z r) ∧
      (r.node = old → s.node ∈ net'.faninNodes z ∧
        (net'.faninNodes z).Perm (net.faninNodes old)))

/-- A node with fan-in nodes is a live gate. -/
theorem isSome_gateFanins_of_mem {g n : Node} (member : n ∈ net.faninNodes g)
    : (net.gateFanins g).isSome := by
  obtain ⟨f, gate, -⟩ := mem_faninNodes.mp member
  rw [gate]
  rfl

/-- Once the outputs are redirected to a signal on another node, no output uses `old`. -/
theorem outputUses_redirected {old : Node} {s : Signal} (apart : s.node ≠ old)
    (outputs : ∀ j : Nat, net'.outputs[j]? = (net.outputs[j]?).map (redirectSignal old s))
    : net'.outputUses old = 0 := by
  rw [outputUses, List.countP_eq_zero]
  intro o member onOld
  obtain ⟨j, lt, rfl⟩ := List.getElem_of_mem member
  rw [Array.length_toList] at lt
  have atJ := outputs j
  rw [Array.getElem?_eq_getElem lt] at atJ
  obtain ⟨o₀, -, same⟩ := Option.map_eq_some_iff.mp atJ.symm
  rw [Array.getElem_toList, ← same, node_redirectSignal] at onOld
  unfold redirectNode at onOld
  split at onOld
  · exact apart (by simpa using onOld)
  · rename_i other
    exact other (by simpa using onOld)

/-- Paths run through live gates alone, so two networks with the same live gates have the same
paths. -/
theorem Reaches.of_sameGates (gates : ∀ g, net'.gateFanins g = net.gateFanins g) {a b : Node}
    (path : net'.Reaches a b) : net.Reaches a b := by
  induction path with
  | refl n => exact .refl n
  | fanin gate member _ below => exact .fanin ((gates _) ▸ gate) member below

/-- Substituting `old` by a live signal `s` on another node that does not reach `old`: moving the
outputs, redirecting each recorded parent once, and taking `old` out, as the work list does, is
a `Substitutes` step. -/
theorem Coherent.substitutes {net₂ net₃ net₄ : Network} {old : Node} {s : Signal}
    (coherent : net.Coherent) (oldLive : net.Live old) (sLive : net.Live s.node)
    (apart : s.node ≠ old) (below : ¬ net.Reaches s.node old) {u : Unit}
    (redirecting : Returns (Network.redirectOutputs old s) net u net₂) {ps : Array Node}
    (reading : Returns (query (·.parents old)) net₂ ps net₂) {work work' : List (Node × Signal)}
    (loop : Returns (Network.redirectParents old s (sortedUnique ps) work) net₂ work' net₃)
    (takingOut : Returns (Network.takeOutNode old) net₃ u net₄)
    : ∃ pushed, work' = pushed ++ work ∧ Substitutes net net₄ old s pushed := by
  obtain ⟨coherent₂, table₂, lives₂, gates₂, -, -, outputs₂⟩ := coherent.redirectOutputs sLive redirecting
  have nodes₂ : ∀ g, net₂.faninNodes g = net.faninNodes g := fun g => by
    unfold faninNodes
    rw [gates₂]
  have size₂ : net₂.size = net.size := by simp only [Network.size, table₂]
  obtain ⟨read, -⟩ := returns_query.mp reading
  obtain ⟨r, found, rfl⟩ := parents_eq_ok.mp read
  have uses₂ := (refsOf_eq_ok.mp found).2
  -- the parents read are exactly the gates that use `old`
  have parents : ∀ q, q ∈ sortedUnique r.parents ↔ old ∈ net₂.faninNodes q := fun q => by
    rw [mem_sortedUnique, ← slots_pos_iff, ← coherent₂.parents old r q uses₂, Array.count_pos_iff]
  have oldBelow := coherent.lt_size_of_live oldLive
  have sBelow := coherent.lt_size_of_live sLive
  obtain ⟨rank, ranked⟩ := coherent₂.acyclic
  have below₂ : ¬ net₂.Reaches s.node old := fun path => below (path.of_sameGates gates₂)
  obtain ⟨rank', ranked', lower⟩ := ranked.lift below₂
  obtain ⟨pushed, rfl, redirected⟩ := coherent₂.redirectParents ranked' lower
    ((lives₂ _).mpr sLive) apart (size₂ ▸ oldBelow) (sortedUnique_nodup _)
    (fun q member => (parents q).mp member) loop
  obtain ⟨coherent₄, thins, oldDead⟩ := redirected.coherent.takeOutNode takingOut
  have size₃ : net.size ≤ net₃.size := size₂ ▸ redirected.size
  -- no live gate uses `old` any more: the parents are redirected and new gates avoid it
  have unused : ∀ g, old ∉ net₃.faninNodes g := by
    intro g member
    by_cases old' : g.id < net₂.size
    · by_cases visited : g ∈ sortedUnique r.parents
      · exact not_mem_map_redirectNode apart _
          ((redirected.redirected g visited).1.faninNodes.mem_iff.mp member)
      · have same : net₃.faninNodes g = net₂.faninNodes g := by
          unfold faninNodes
          rw [(redirected.kept g old' visited).1]
        exact visited ((parents g).mpr (same ▸ member))
    · obtain ⟨f, gate, -⟩ := mem_faninNodes.mp member
      exact redirected.fresh_unused apart (Nat.not_lt.mp old') gate member
  have taken : (net.gateFanins old).isSome → ¬ net₄.Live old := by
    intro isGate
    obtain ⟨f, gate⟩ := Option.isSome_iff_exists.mp isGate
    have notVisited : old ∉ sortedUnique r.parents := fun member =>
      coherent₂.not_mem_faninNodes_self old ((parents old).mp member)
    have gate₃ : net₃.gateFanins old = some f := by
      rw [(redirected.kept old (size₂ ▸ oldBelow) notVisited).1, gates₂, gate]
    obtain ⟨r₃, uses₃, -⟩ := (redirected.live old (size₂ ▸ oldBelow)).mpr ((lives₂ old).mpr oldLive)
    have counted := redirected.coherent.fanout old r₃ uses₃
    have noParents : r₃.parents.size = 0 := by
      by_contra nonempty
      have first := redirected.coherent.parents old r₃ r₃.parents[0] uses₃
      rw [slots_eq_count, List.count_eq_zero_of_not_mem (unused _)] at first
      exact absurd first (Nat.pos_iff_ne_zero.mp (Array.count_pos_iff.mpr (Array.getElem_mem _)))
    have noOutputs : net₃.outputUses old = 0 := by
      rw [outputUses, redirected.outputs]
      exact outputUses_redirected apart outputs₂
    exact oldDead f r₃ gate₃ uses₃ (by omega)
  -- what the take-out keeps of the live nodes
  have nodes₄ : ∀ g, net₄.Live g → net₄.faninNodes g = net₃.faninNodes g := fun g live => by
    unfold faninNodes
    rw [thins.gates g live]
  have view₃ : ∀ g : Node, g.id < net.size → net₃.Live g →
      (net₃.faninNodes g).Perm ((net.faninNodes g).map (redirectNode old s.node)) := by
    intro g below live
    rw [← nodes₂]
    by_cases visited : g ∈ sortedUnique r.parents
    · exact (redirected.redirected g visited).1.faninNodes
    · have same : net₃.faninNodes g = net₂.faninNodes g := by
        unfold faninNodes
        rw [(redirected.kept g (size₂ ▸ below) visited).1]
      have fixed : (net₂.faninNodes g).map (redirectNode old s.node) = net₂.faninNodes g := by
        conv_rhs => rw [← List.map_id (net₂.faninNodes g)]
        exact List.map_congr_left fun n member =>
          redirectNode_of_ne fun onOld => visited ((parents g).mpr (onOld ▸ member))
      rw [same, fixed]
  refine ⟨pushed, rfl, {
    coherent := coherent₄
    size := thins.size ▸ size₃
    live := fun n below live =>
      (lives₂ n).mp ((redirected.live n (size₂ ▸ below)).mp (thins.live n live))
    dies := fun n below live dead => ?_
    oldDies := taken
    view := fun g below live => (List.Perm.of_eq (nodes₄ g live)).trans
      (view₃ g below (thins.live g live))
    signals := fun g f below gate => ?_
    links := fun g below live unused₀ => ?_
    fresh := fun g f beyond gate => ?_
    unlinked := fun g f below gate unlinked => ?_
    handed := fun z r' member => ?_ }⟩
  · have live₃ := (redirected.live n (size₂ ▸ below)).mpr ((lives₂ n).mpr live)
    have isGate := thins.dies n live₃ dead
    by_cases visited : n ∈ sortedUnique r.parents
    · rw [← gates₂]
      exact isSome_gateFanins_of_mem ((parents n).mp visited)
    · rwa [(redirected.kept n (size₂ ▸ below) visited).1, gates₂] at isGate
  · -- a visited gate was redirected, and the others did not use `old`
    have live := live_of_gateFanins gate
    rw [thins.gates g live] at gate
    by_cases visited : g ∈ sortedUnique r.parents
    · obtain ⟨f₀, f₃, gate₀, gate₃, perm⟩ := (redirected.redirected g visited).1
      exact ⟨f₀, f₃, by rw [← gates₂]; exact gate₀, by rw [thins.gates g live]; exact gate₃, perm⟩
    · have kept := (redirected.kept g (size₂ ▸ below) visited).1
      rw [kept, gates₂] at gate
      have unused₀ : old ∉ f.toList.map Signal.node := fun member =>
        visited ((parents g).mpr (by rw [nodes₂, faninNodes_of_gateFanins gate]; exact member))
      refine ⟨f, f, gate, by rw [thins.gates g live, kept, gates₂]; exact gate, ?_⟩
      rw [map_redirectSignal_of_not_mem unused₀]
  · have notVisited : g ∉ sortedUnique r.parents := fun member =>
      unused₀ (by rw [← nodes₂]; exact (parents g).mp member)
    rw [thins.links g.id live, (redirected.kept g (size₂ ▸ below) notVisited).2, table₂]
  · have live := live_of_gateFanins gate
    rw [thins.gates g live] at gate
    obtain ⟨linked, p, visitedP, perm⟩ := redirected.fresh g f (size₂ ▸ beyond) gate
    refine ⟨by rw [thins.links g.id live]; exact linked, p,
      by rw [← nodes₂]; exact (parents p).mp visitedP, ?_⟩
    rw [nodes₄ g live, ← nodes₂ p]
    exact perm.trans (redirected.redirected p visitedP).1.faninNodes
  · have live := live_of_gateFanins gate
    rw [thins.links g.id live] at unlinked
    by_cases visited : g ∈ sortedUnique r.parents
    · rcases (redirected.redirected g visited).2 with linked | listed
      · rw [linked] at unlinked
        cases unlinked
      · exact .inl listed
    · rw [(redirected.kept g (size₂ ▸ below) visited).2, table₂] at unlinked
      exact .inr ⟨unlinked, fun member => visited ((parents g).mpr ((nodes₂ g).symm ▸ member))⟩
  · obtain ⟨visited, unlinked, rLive, replaced⟩ := redirected.pushed z r' member
    have used := (parents z).mp visited
    have zNodes := (redirected.redirected z visited).1.faninNodes
    refine ⟨nodes₂ z ▸ used, ?_, fun below => ?_,
      fun zLive => ⟨?_, fun rLive₄ => ?_, fun onOld => ⟨?_, ?_⟩⟩⟩
    · rw [thins.size]
      exact redirected.coherent.lt_size_of_live rLive
    · exact (lives₂ _).mp ((redirected.live _ (size₂ ▸ below)).mp rLive)
    · rw [thins.links z.id zLive]
      exact unlinked
    · obtain ⟨fz, gateZ, apartZ, majority⟩ := replaced
      exact ⟨fz, by rw [thins.gates z zLive]; exact gateZ, apartZ,
        majority.congr (thins.gates r'.node rLive₄) (thins.links r'.node.id rLive₄)⟩
    · rw [nodes₄ z zLive]
      have moved := List.mem_map_of_mem (f := redirectNode old s.node) used
      rw [redirectNode_old] at moved
      exact zNodes.mem_iff.mpr moved
    · -- the replacement on `old` was found over the redirected fan-ins of `z`
      obtain ⟨fz, gateZ, -, majority⟩ := replaced
      rcases majority with ⟨member, -⟩ | ⟨h, gateOld, perm, -⟩
      · have onZ : old ∈ net₃.faninNodes z := by
          rw [faninNodes_of_gateFanins gateZ, ← onOld]
          exact List.mem_map_of_mem member
        exact absurd (zNodes.mem_iff.mp onZ) (not_mem_map_redirectNode apart _)
      · have notVisited : old ∉ sortedUnique r.parents := fun member =>
          coherent₂.not_mem_faninNodes_self old ((parents old).mp member)
        rw [onOld, (redirected.kept old (size₂ ▸ oldBelow) notVisited).1, gates₂] at gateOld
        rw [nodes₄ z zLive, faninNodes_of_gateFanins gateZ, faninNodes_of_gateFanins gateOld]
        exact (Signal.nodes_perm_of_perm_xor perm).symm

end Network

end MajorityGraph
