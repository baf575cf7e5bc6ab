import MajorityGraph.Proofs.Network.Progress

/-!
Every mutation keeps a network well formed (`wellFormed_invariant`); substitution keeps
`Substituting`, which ends with every live gate linked.
-/

namespace MajorityGraph

namespace Network

open NetM

variable {net net' : Network} {done : Std.HashMap Nat Signal}

-----------------------------------------------------------------------------------------
-- The invariant of the work list
-----------------------------------------------------------------------------------------

/-- Every live node that the replacement `r` leads to is other than `p`. -/
def LeadsAway (net : Network) (done : Std.HashMap Nat Signal) (r : Signal) (p : Node) : Prop :=
  ∀ t, net.Leads done r t → net.Live t.node → t.node ≠ p

/-- The unlinked gate `p` is awaited in `work`: an item for `p` leads away from `p`, and so does
every item above it for a live node over the same fan-in nodes as `p`. -/
def Awaits (net : Network) (done : Std.HashMap Nat Signal) (work : List (Node × Signal))
    (p : Node) : Prop :=
  ∃ pre r post, work = pre ++ (p, r) :: post ∧ net.LeadsAway done r p ∧
    ∀ z r', (z, r') ∈ pre → net.Live z → (net.faninNodes z).Perm (net.faninNodes p) →
      net.LeadsAway done r' p

/-- The invariant of a substitution's work list: the network is coherent; the recorded
substitutions are settled; every item names a node of the network, which is a gate while it
lives, and a replacement that leads only to live nodes related to it; and every live gate left
unlinked is awaited. -/
structure Substituting (net : Network) (work : List (Node × Signal))
    (done : Std.HashMap Nat Signal) : Prop where
  coherent : net.Coherent
  settled : net.Settled done
  items : ∀ p r, (p, r) ∈ work → p.id < net.size ∧ r.node.id < net.size ∧
    (net.Live p → (net.gateFanins p).isSome ∧
      ∀ t, net.Leads done r t → net.Live t.node → net.Related p t.node)
  awaited : ∀ p f, net.gateFanins p = some f → net.table.linkedAt p.id = false →
    net.Awaits done work p

/-- With no work left, every live gate is linked again. -/
theorem Substituting.wellFormed (substituting : net.Substituting [] done) : net.WellFormed where
  toCoherent := substituting.coherent
  allLinked g f gate := by
    cases linked : net.table.linkedAt g.id with
    | true => rfl
    | false =>
        obtain ⟨pre, r, post, split, -⟩ := substituting.awaited g f gate linked
        exact absurd split.symm (List.append_ne_nil_of_right_ne_nil pre (List.cons_ne_nil _ _))

/-- Dropping the top item keeps the invariant when no unlinked gate was awaited by it alone:
its node is dead, or linked, or no gate. -/
theorem Substituting.pop {old : Node} {new : Signal} {work : List (Node × Signal)}
    (substituting : net.Substituting ((old, new) :: work) done)
    (settledOld : ∀ f, net.gateFanins old = some f → net.table.linkedAt old.id = true)
    : net.Substituting work done where
  coherent := substituting.coherent
  settled := substituting.settled
  items p r member := substituting.items p r (List.mem_cons_of_mem _ member)
  awaited p f gate unlinked := by
    obtain ⟨pre, r, post, split, avoids, above⟩ := substituting.awaited p f gate unlinked
    cases pre with
    | nil =>
        obtain ⟨rfl, -⟩ := Prod.mk.inj (List.cons.inj split).1
        rw [settledOld f gate] at unlinked
        cases unlinked
    | cons top pre =>
        obtain ⟨-, rfl⟩ := List.cons.inj split
        exact ⟨pre, r, post, rfl, avoids,
          fun z r' member => above z r' (List.mem_cons_of_mem _ member)⟩

/-- Gates added linked leave the invariant as it was: the old nodes keep their liveness and
fan-ins, and every walk through the records stays among them. -/
theorem Substituting.addsLinked {work : List (Node × Signal)}
    (substituting : net.Substituting work done) {ns : List Node} (added : AddsLinked net net' ns)
    (coherent' : net'.Coherent) : net'.Substituting work done := by
  have size := added.grows.size
  have lives : ∀ n : Node, n.id < net.size → (net'.Live n ↔ net.Live n) :=
    fun n below => ⟨added.dead n below, added.grows.live n⟩
  have nodes : ∀ g : Node, g.id < net.size → net'.faninNodes g = net.faninNodes g :=
    fun g below => by unfold faninNodes; rw [added.grows.gates g below]
  have leads : ∀ r t, r.node.id < net.size → net'.Leads done r t →
      net.Leads done r t ∧ t.node.id < net.size :=
    fun r t below chase =>
      Leads.congr lives (fun k u found => (substituting.settled k u found).2.1) below chase
  refine ⟨coherent', fun k u found => ?_, fun p r member => ?_, fun p f gate unlinked => ?_⟩
  · obtain ⟨below, uBelow, settledK⟩ := substituting.settled k u found
    refine ⟨Nat.lt_of_lt_of_le below size, Nat.lt_of_lt_of_le uBelow size, ?_⟩
    rcases settledK with dead | notGate
    · exact .inl fun live => dead ((lives _ below).mp live)
    · exact .inr (by rw [added.grows.gates _ below]; exact notGate)
  · obtain ⟨pBelow, rBelow, related⟩ := substituting.items p r member
    refine ⟨Nat.lt_of_lt_of_le pBelow size, Nat.lt_of_lt_of_le rBelow size, fun live => ?_⟩
    obtain ⟨isGate, rel⟩ := related ((lives p pBelow).mp live)
    refine ⟨by rw [added.grows.gates p pBelow]; exact isGate, fun t chase tLive => ?_⟩
    obtain ⟨chase₀, tBelow⟩ := leads r t rBelow chase
    have old := rel t chase₀ ((lives _ tBelow).mp tLive)
    unfold Related at old ⊢
    rw [nodes p pBelow, nodes t.node tBelow]
    exact old
  · -- new gates are linked, so an unlinked gate is an old one, awaited as before
    have pBelow : p.id < net.size := by
      by_contra beyond
      rw [(added.fresh p f (Nat.not_lt.mp beyond) gate).2] at unlinked
      cases unlinked
    rw [added.grows.gates p pBelow] at gate
    rw [added.links p.id pBelow] at unlinked
    obtain ⟨pre, r, post, split, avoids, above⟩ := substituting.awaited p f gate unlinked
    have avoids' : ∀ r', r'.node.id < net.size → net.LeadsAway done r' p → net'.LeadsAway done r' p :=
      fun r' below avoid t chase live => by
        obtain ⟨chase₀, tBelow⟩ := leads r' t below chase
        exact avoid t chase₀ ((lives _ tBelow).mp live)
    have inWork : ∀ z r', (z, r') ∈ pre → (z, r') ∈ work := fun z r' member => by
      rw [split]
      exact List.mem_append_left _ member
    refine ⟨pre, r, post, split, avoids' r ?_ avoids, fun z r' member live same => ?_⟩
    · exact (substituting.items p r (by rw [split]; simp)).2.1
    · obtain ⟨zBelow, rBelow', -⟩ := substituting.items z r' (inWork z r' member)
      rw [nodes z zBelow, nodes p pBelow] at same
      exact avoids' r' rBelow' (above z r' member ((lives z zBelow).mp live) same)

-----------------------------------------------------------------------------------------
-- Following a replacement
-----------------------------------------------------------------------------------------

/-- A live replacement is kept as it is. -/
theorem resolveReplacement_of_live {old : Node} {fuel : Nat} {new s : Signal}
    (live : net.Live new.node) (run : Returns (Network.resolveReplacement old done fuel new) net s net')
    : s = new ∧ net' = net := by
  cases fuel with
  | zero => simp [Network.resolveReplacement] at run
  | succ fuel =>
      unfold Network.resolveReplacement at run
      obtain ⟨dead, net₁, asking, afterAsk⟩ := run.bind
      obtain ⟨answer, rfl⟩ := returns_query.mp asking
      split at afterAsk
      · exact returns_pure.mp afterAsk
      · rename_i found
        simp only [Bool.not_eq_true', Bool.not_eq_false] at found
        exact absurd live (not_live_of_isDead (found ▸ answer))

/-- Following a replacement for a live node `old` of a coherent network: the result is live, and
it is where the records lead, or else `old` is a gate, built again from its fan-ins, and the
result stands for their majority. Only linked gates are added on the way. -/
theorem Coherent.resolveReplacement {old : Node}
    : ∀ (fuel : Nat) {net net' : Network} {new s : Signal}, net.Coherent → net.Live old →
      Returns (Network.resolveReplacement old done fuel new) net s net' →
      net'.Coherent ∧ AddsLinked net net' (net.faninNodes old) ∧ net'.Live s.node ∧
        ((net' = net ∧ net.Leads done new s) ∨
          ∃ f, net.gateFanins old = some f ∧ net'.MajorityOf f s)
  | 0, _, _, _, _, _, _, run => by simp [Network.resolveReplacement] at run
  | fuel + 1, net, net', new, s, coherent, oldLive, run => by
      unfold Network.resolveReplacement at run
      obtain ⟨dead, net₁, asking, afterAsk⟩ := run.bind
      obtain ⟨answer, same⟩ := returns_query.mp asking
      rw [same] at afterAsk
      split at afterAsk
      · -- a live replacement is kept
        rename_i alive
        obtain ⟨rfl, rfl⟩ := returns_pure.mp afterAsk
        simp only [Bool.not_eq_true'] at alive
        exact ⟨coherent, AddsLinked.refl _ _, live_of_isDead (alive ▸ answer),
          .inl ⟨rfl, Relation.ReflTransGen.refl⟩⟩
      rename_i isDead
      simp only [Bool.not_eq_true', Bool.not_eq_false] at isDead
      have gone := not_live_of_isDead (isDead ▸ answer)
      split at afterAsk
      · -- a dead replacement moves on to its recorded substitution
        rename_i u found
        obtain ⟨coherent', added, live', outcome⟩ :=
          Coherent.resolveReplacement fuel coherent oldLive afterAsk
        rcases outcome with ⟨same, chase⟩ | rebuilt
        · exact ⟨coherent', added, live',
            .inl ⟨same, Relation.ReflTransGen.head ⟨gone, u, found, rfl⟩ chase⟩⟩
        · exact ⟨coherent', added, live', .inr rebuilt⟩
      · -- without one, `old` is built again from its fan-ins
        obtain ⟨d, net₂, reading, afterRead⟩ := afterAsk.bind
        obtain ⟨read, same₂⟩ := returns_query.mp reading
        rw [same₂] at afterRead
        dsimp only at afterRead
        split at afterRead
        · obtain ⟨_, _, failing, _⟩ := afterRead.bind
          simp at failing
        rename_i isGate
        obtain ⟨s', net₃, building, afterBuild⟩ := afterRead.bind
        have gate := gateFanins_of_data read (by simpa using isGate) oldLive
        obtain ⟨coherent₃, added, live₃, majority⟩ :=
          coherent.createMaj (coherent.faninsLive old d.fanins gate) building
        obtain ⟨rfl, rfl⟩ := resolveReplacement_of_live live₃ afterBuild
        have nodes : net.faninNodes old = [d.fanins.a, d.fanins.b, d.fanins.c].map Signal.node :=
          faninNodes_of_gateFanins gate
        rw [nodes]
        exact ⟨coherent₃, added, live₃, .inr ⟨d.fanins, gate, majority⟩⟩

-----------------------------------------------------------------------------------------
-- One substitution keeps the invariant
-----------------------------------------------------------------------------------------

section Substitutes

variable {net₄ : Network} {old : Node} {s : Signal} {pushed : List (Node × Signal)}
  (effect : Substitutes net net₄ old s pushed)
include effect

/-- A live old node that did not use `old` keeps its fan-in nodes. -/
theorem Substitutes.faninNodes_perm {g : Node} (below : g.id < net.size) (live : net₄.Live g)
    (unused : old ∉ net.faninNodes g) : (net₄.faninNodes g).Perm (net.faninNodes g) := by
  refine (effect.view g below live).trans (List.Perm.of_eq ?_)
  conv_rhs => rw [← List.map_id (net.faninNodes g)]
  exact List.map_congr_left fun n member =>
    redirectNode_of_ne fun onOld => unused (onOld ▸ member)

/-- A live old node is a gate after the step exactly when it was one before. -/
theorem Substitutes.isSome_gateFanins_iff {g : Node} (below : g.id < net.size)
    (live : net₄.Live g) : (net₄.gateFanins g).isSome ↔ (net.gateFanins g).isSome := by
  have perm := effect.view g below live
  constructor
  · intro isGate
    obtain ⟨f, gate⟩ := Option.isSome_iff_exists.mp isGate
    have member : f.a.node ∈ net₄.faninNodes g := by
      rw [faninNodes_of_gateFanins gate]
      simp [Fanins.toList]
    obtain ⟨n, member', -⟩ := List.mem_map.mp (perm.mem_iff.mp member)
    exact isSome_gateFanins_of_mem member'
  · intro isGate
    obtain ⟨f, gate⟩ := Option.isSome_iff_exists.mp isGate
    have member : redirectNode old s.node f.a.node ∈ (net.faninNodes g).map (redirectNode old s.node) := by
      rw [faninNodes_of_gateFanins gate]
      exact List.mem_map_of_mem (by simp [Fanins.toList])
    exact isSome_gateFanins_of_mem (perm.mem_iff.mpr member)

variable (settled : net.Settled done) (sLive : net.Live s.node) (apart : s.node ≠ old)
include settled sLive apart

/-- Where a handed-back gate's replacement leads: to one of its fan-in nodes, or to a linked gate
over the same nodes. -/
theorem Substitutes.handed_leads {z : Node} {r t : Signal} (member : (z, r) ∈ pushed)
    (live : net₄.Live z) (chase : net₄.Leads (done.insert old.id s) r t) (tLive : net₄.Live t.node)
    : t.node ∈ net₄.faninNodes z ∨
        ((net₄.faninNodes t.node).Perm (net₄.faninNodes z) ∧ net₄.table.linkedAt t.node.id = true) := by
  obtain ⟨-, -, alive, handed⟩ := effect.handed z r member
  obtain ⟨-, replaced, onOld⟩ := handed live
  rcases Leads.of_handed effect.dies settled sLive apart alive chase with rfl | ⟨isOld, rfl⟩
  · exact (replaced tLive).nodes
  · rw [Signal.node_xor]
    exact .inl (onOld isOld).1

/-- A handed-back gate's replacement leads away from every unlinked gate over the same nodes. -/
theorem Substitutes.handed_avoids {z p : Node} {r : Signal} (member : (z, r) ∈ pushed)
    (live : net₄.Live z) (unlinked : net₄.table.linkedAt p.id = false)
    (same : (net₄.faninNodes z).Perm (net₄.faninNodes p)) :
    net₄.LeadsAway (done.insert old.id s) r p := fun t chase tLive => by
  refine effect.coherent.ne_of_related ?_ unlinked
  rcases effect.handed_leads settled sLive apart member live chase tLive with inZ | ⟨-, linked⟩
  · exact .inl (same.mem_iff.mp inZ)
  · exact .inr linked

end Substitutes

/-- Substituting `old` by `s` keeps the invariant of the work list, with the gates handed back on
top and `old` recorded as substituted by `s`. The invariant held before for the rest of the work
and for the unlinked gates, `s` leads away from each unlinked gate over the nodes of `old` that
the item's replacement led away from, and, unless no work is left, `old` is a gate and `s` is
related to it. -/
theorem Substitutes.substituting {net₄ : Network} {old : Node} {new s : Signal}
    {work pushed : List (Node × Signal)} (effect : Substitutes net net₄ old s pushed)
    (settled : net.Settled done)
    (items : ∀ p r, (p, r) ∈ work → p.id < net.size ∧ r.node.id < net.size ∧
      (net.Live p → (net.gateFanins p).isSome ∧
        ∀ t, net.Leads done r t → net.Live t.node → net.Related p t.node))
    (awaited : ∀ p f, net.gateFanins p = some f → net.table.linkedAt p.id = false →
      net.Awaits done ((old, new) :: work) p)
    (oldLive : net.Live old) (oldBelow : old.id < net.size) (sLive : net.Live s.node)
    (sBelow : s.node.id < net.size) (apart : s.node ≠ old)
    (below : work = [] ∨ ((net.gateFanins old).isSome ∧ net.Related old s.node))
    (sAvoids : ∀ p f, net.gateFanins p = some f → net.table.linkedAt p.id = false →
      (net.faninNodes old).Perm (net.faninNodes p) → net.LeadsAway done new p → s.node ≠ p)
    : net₄.Substituting (pushed ++ work) (done.insert old.id s) := by
  have size := effect.size
  have coherent₄ := effect.coherent
  -- a dead node stays dead, and a node without a gate stays without one
  have stillSettled : ∀ g : Node, g.id < net.size → (¬ net.Live g ∨ net.gateFanins g = none) →
      ¬ net₄.Live g ∨ net₄.gateFanins g = none := by
    intro g gBelow settledG
    by_cases live : net₄.Live g
    · refine .inr (Option.not_isSome_iff_eq_none.mp fun isGate => ?_)
      rcases settledG with dead | notGate
      · exact dead (effect.live g gBelow live)
      · have := (effect.isSome_gateFanins_iff gBelow live).mp isGate
        rw [notGate] at this
        cases this
    · exact .inl live
  -- every walk from an item below ends where it ended before, or runs through `old` to `s`
  have walk : ∀ p r, (p, r) ∈ work → ∀ t, net₄.Leads (done.insert old.id s) r t →
      net₄.Live t.node → (net.Leads done r t ∧ t.node ≠ old ∧ t.node.id < net.size ∧
        net.Live t.node) ∨ ∃ m, net.Leads done r m ∧ m.node = old ∧ t.node = s.node := by
    intro p r member t chase live
    have oldDead := effect.oldDies (below.resolve_left (List.ne_nil_of_mem member)).1
    have rBelow := (items p r member).2.1
    rcases Leads.substituted effect.dies settled oldDead sLive apart rBelow chase live with
      ⟨chase₀, tOld⟩ | ⟨m, chase₀, onOld, rfl⟩
    · have tBelow := (Leads.congr (fun _ _ => Iff.rfl)
        (fun k u found => (settled k u found).2.1) rBelow chase₀).2
      exact .inl ⟨chase₀, tOld, tBelow, effect.live _ tBelow live⟩
    · exact .inr ⟨m, chase₀, onOld, Signal.node_xor _ _⟩
  refine ⟨coherent₄, fun k u found => ?_, fun p r member => ?_, fun p f gate unlinked => ?_⟩
  · -- the records: `old` is dead, or no gate, and so are the nodes recorded before
    rw [Std.HashMap.get?_insert] at found
    split at found
    · rename_i here
      cases found
      have kOld : old.id = k := by simpa using here
      subst kOld
      refine ⟨Nat.lt_of_lt_of_le oldBelow size, Nat.lt_of_lt_of_le sBelow size, ?_⟩
      cases isGate : (net.gateFanins old).isSome with
      | true => exact .inl (effect.oldDies isGate)
      | false => exact stillSettled old oldBelow (.inr (Option.not_isSome_iff_eq_none.mp (by simp [isGate])))
    · obtain ⟨kBelow, uBelow, settledK⟩ := settled k u found
      exact ⟨Nat.lt_of_lt_of_le kBelow size, Nat.lt_of_lt_of_le uBelow size,
        stillSettled ⟨k⟩ kBelow settledK⟩
  · rcases List.mem_append.mp member with handed | rest
    · -- a gate handed back: its replacement is related to it
      obtain ⟨used, rBelow, -, -⟩ := effect.handed p r handed
      have pBelow := lt_size_of_mem_faninNodes used
      refine ⟨Nat.lt_of_lt_of_le pBelow size, rBelow, fun live => ⟨?_, fun t chase tLive => ?_⟩⟩
      · exact (effect.isSome_gateFanins_iff pBelow live).mpr (isSome_gateFanins_of_mem used)
      · rcases effect.handed_leads settled sLive apart handed live chase tLive with inP | ⟨same, -⟩
        · exact .inl inP
        · exact .inr same
    · -- an item below: its replacement stays related to it through the redirection
      obtain ⟨pBelow, rBelow, related⟩ := items p r rest
      refine ⟨Nat.lt_of_lt_of_le pBelow size, Nat.lt_of_lt_of_le rBelow size, fun live => ?_⟩
      have live₀ := effect.live p pBelow live
      obtain ⟨isGate, rel⟩ := related live₀
      refine ⟨(effect.isSome_gateFanins_iff pBelow live).mpr isGate, fun t chase tLive => ?_⟩
      rcases walk p r rest t chase tLive with ⟨chase₀, tOld, tBelow, tLive₀⟩ | ⟨m, chase₀, onOld, onS⟩
      · exact (rel t chase₀ tLive₀).redirect tOld (effect.view p pBelow live)
          (effect.view t.node tBelow tLive)
      · have relOld := rel m chase₀ (onOld ▸ oldLive)
        rw [onOld] at relOld
        rw [onS] at tLive ⊢
        exact relOld.redirect_old (below.resolve_left (List.ne_nil_of_mem rest)).2 apart
          (effect.view p pBelow live) (effect.view s.node sBelow tLive)
  · -- an unlinked gate: handed back now, or awaited as before
    have pBelow : p.id < net.size := by
      by_contra beyond
      rw [(effect.fresh p f (Nat.not_lt.mp beyond) gate).1] at unlinked
      cases unlinked
    have live := live_of_gateFanins gate
    rcases effect.unlinked p f pBelow gate unlinked with handed | ⟨unlinked₀, unused⟩
    · obtain ⟨⟨p', r⟩, member, rfl⟩ := List.mem_map.mp handed
      obtain ⟨pre, post, split⟩ := List.append_of_mem member
      refine ⟨pre, r, post ++ work, by rw [split]; simp,
        effect.handed_avoids settled sLive apart member live unlinked (List.Perm.refl _),
        fun z r' above zLive same => ?_⟩
      exact effect.handed_avoids settled sLive apart (by rw [split]; simp [above]) zLive unlinked same
    · have live₀ := effect.live p pBelow live
      obtain ⟨f₀, gate₀⟩ := Option.isSome_iff_exists.mp
        ((effect.isSome_gateFanins_iff pBelow live).mp (by rw [gate]; rfl))
      obtain ⟨pre, r, post, split, avoids, above⟩ := awaited p f₀ gate₀ unlinked₀
      have notOld : p ≠ old := by
        rintro rfl
        exact effect.oldDies (by rw [gate₀]; rfl) live
      cases pre with
      | nil =>
          obtain ⟨rfl, -⟩ := Prod.mk.inj (List.cons.inj split).1
          exact absurd rfl notOld
      | cons top pre =>
          obtain ⟨rfl, rfl⟩ := List.cons.inj split
          have inWork : (p, r) ∈ pre ++ (p, r) :: post := by simp
          -- `s` is not `p` when `old` is over the same nodes as `p`
          have sNe : (net.faninNodes old).Perm (net.faninNodes p) → s.node ≠ p := fun same =>
            sAvoids p f₀ gate₀ unlinked₀ same (above old new List.mem_cons_self oldLive same)
          have pNodes := effect.faninNodes_perm pBelow live unused
          refine ⟨pushed ++ pre, r, post, by simp, fun t chase tLive => ?_,
            fun z r' member zLive same => ?_⟩
          · rcases walk p r inWork t chase tLive with ⟨chase₀, -, -, tLive₀⟩ | ⟨m, chase₀, onOld, onS⟩
            · exact avoids t chase₀ tLive₀
            · have relOld := (items p r inWork).2.2 live₀ |>.2 m chase₀ (onOld ▸ oldLive)
              rw [onOld] at relOld
              rw [onS]
              rcases relOld with used | same
              · exact absurd used unused
              · exact sNe same
          · rcases List.mem_append.mp member with handed | rest
            · exact effect.handed_avoids settled sLive apart handed zLive unlinked same
            intro t chase tLive
            have zItem : (z, r') ∈ pre ++ (p, r) :: post := List.mem_append_left _ rest
            obtain ⟨zBelow, -, related⟩ := items z r' zItem
            have zLive₀ := effect.live z zBelow zLive
            have rel := (related zLive₀).2
            by_cases used : old ∈ net.faninNodes z
            · -- `z` was redirected: its replacement is a fan-in node of `z`, or has `old` below
              rcases walk z r' zItem t chase tLive with ⟨chase₀, tOld, tBelow, tLive₀⟩ |
                ⟨m, -, -, onS⟩
              · rcases rel t chase₀ tLive₀ with inZ | sameT
                · refine coherent₄.ne_of_related (.inl (same.mem_iff.mp ?_)) unlinked
                  refine (effect.view z zBelow zLive).mem_iff.mpr ?_
                  rw [← redirectNode_of_ne tOld]
                  exact List.mem_map_of_mem inZ
                · rintro onP
                  rw [onP] at sameT
                  exact unused (sameT.mem_iff.mpr used)
              · rw [onS]
                refine coherent₄.ne_of_related (.inl (same.mem_iff.mp ?_)) unlinked
                have moved := List.mem_map_of_mem (f := redirectNode old s.node) used
                rw [redirectNode_old] at moved
                exact (effect.view z zBelow zLive).mem_iff.mpr moved
            · -- `z` kept its nodes, those of `p`, so its item already led away from `p`
              have same₀ : (net.faninNodes z).Perm (net.faninNodes p) :=
                ((effect.faninNodes_perm zBelow zLive used).symm.trans same).trans pNodes
              have avoidsZ := above z r' (List.mem_cons_of_mem _ rest) zLive₀ same₀
              rcases walk z r' zItem t chase tLive with ⟨chase₀, -, -, tLive₀⟩ | ⟨m, chase₀, onOld, onS⟩
              · exact avoidsZ t chase₀ tLive₀
              · have relOld := rel m chase₀ (onOld ▸ oldLive)
                rw [onOld] at relOld
                rw [onS]
                rcases relOld with inZ | sameOld
                · exact absurd inZ used
                · exact sNe (sameOld.trans same₀)

-----------------------------------------------------------------------------------------
-- The work list
-----------------------------------------------------------------------------------------

/-- One pass of the substitution loop, as the code runs it: the top item is dropped when its
node is dead or when its replacement leads back to it; otherwise the outputs move, each parent is
redirected once, the node is taken out and its substitution recorded. -/
theorem substituteLoop_cases {fuel : Nat} {old : Node} {new : Signal}
    {work : List (Node × Signal)} {u : Unit}
    (run : Returns (substituteLoop (fuel + 1) ((old, new) :: work) done) net u net')
    : (¬ net.Live old ∧ Returns (substituteLoop fuel work done) net u net') ∨
      (net.Live old ∧ ∃ s net₁,
        Returns (resolveReplacement old done (2 * done.size + 4) new) net s net₁ ∧
        ((s.node = old ∧ Returns (substituteLoop fuel work done) net₁ u net') ∨
          (s.node ≠ old ∧ ∃ net₂ ps work' net₃ net₄,
            Returns (redirectOutputs old s) net₁ () net₂ ∧
            Returns (query (·.parents old)) net₂ ps net₂ ∧
            Returns (Network.redirectParents old s (sortedUnique ps) work) net₂ work' net₃ ∧
            Returns (takeOutNode old) net₃ () net₄ ∧
            Returns (substituteLoop fuel work' (done.insert old.id s)) net₄ u net'))) := by
  unfold Network.substituteLoop at run
  obtain ⟨dead, net₀, asking, afterAsk⟩ := run.bind
  obtain ⟨answer, same⟩ := returns_query.mp asking
  rw [same] at afterAsk
  split at afterAsk
  · rename_i isDead
    exact .inl ⟨not_live_of_isDead (isDead ▸ answer), afterAsk⟩
  rename_i alive
  rw [Bool.not_eq_true] at alive
  refine .inr ⟨live_of_isDead (alive ▸ answer), ?_⟩
  obtain ⟨s, net₁, resolving, afterResolve⟩ := afterAsk.bind
  refine ⟨s, net₁, resolving, ?_⟩
  split at afterResolve
  · rename_i onOld
    exact .inl ⟨onOld, afterResolve⟩
  rename_i apart
  obtain ⟨_, net₁', logging, afterLog⟩ := afterResolve.bind
  rw [returns_log.mp logging] at afterLog
  obtain ⟨_, net₂, redirecting, afterRedirect⟩ := afterLog.bind
  obtain ⟨ps, net₂', reading, afterRead⟩ := afterRedirect.bind
  have reading' := reading
  obtain ⟨-, same₂⟩ := returns_query.mp reading
  rw [same₂] at reading' afterRead
  obtain ⟨work', net₃, loop, afterLoop⟩ := afterRead.bind
  obtain ⟨_, net₄, takingOut, rest⟩ := afterLoop.bind
  exact .inr ⟨apart, net₂, ps, work', net₃, net₄, redirecting, reading', loop, takingOut, rest⟩

/-- An unlinked gate awaited by a list topped by an item on a live node over the same fan-in
nodes: that item's replacement leads away from it. -/
theorem Awaits.top {old p : Node} {new : Signal} {work : List (Node × Signal)}
    (awaits : net.Awaits done ((old, new) :: work) p) (live : net.Live old)
    (same : (net.faninNodes old).Perm (net.faninNodes p)) : net.LeadsAway done new p := by
  obtain ⟨pre, r, post, split, avoids, above⟩ := awaits
  cases pre with
  | nil =>
      obtain ⟨-, rfl⟩ := Prod.mk.inj (List.cons.inj split).1
      exact avoids
  | cons top pre =>
      obtain ⟨rfl, -⟩ := List.cons.inj split
      exact above old new List.mem_cons_self live same

/-- Without work the loop changes nothing. -/
theorem substituteLoop_nil {fuel : Nat} {u : Unit}
    (run : Returns (substituteLoop fuel [] done) net u net') : net' = net := by
  cases fuel with
  | zero => simp [Network.substituteLoop] at run
  | succ fuel => exact (returns_pure.mp run).2

/-- The substitution loop keeps its invariant, and so ends, when it returns, with a well-formed
network: every gate left unlinked on the way has been linked again or taken out. -/
theorem Substituting.substituteLoop : ∀ (fuel : Nat) {net net' : Network}
    {work : List (Node × Signal)} {done : Std.HashMap Nat Signal} {u : Unit},
    net.Substituting work done → Returns (Network.substituteLoop fuel work done) net u net' →
    net'.WellFormed
  | 0, _, _, _, _, _, _, run => by simp [Network.substituteLoop] at run
  | fuel + 1, net, net', [], done, u, substituting, run => by
      rw [substituteLoop_nil run]
      exact substituting.wellFormed
  | fuel + 1, net, net', (old, new) :: work, done, u, substituting, run => by
      rcases substituteLoop_cases run with ⟨dead, rest⟩ | ⟨oldLive, s, net₁, resolving, outcome⟩
      · exact Substituting.substituteLoop fuel
          (substituting.pop fun f gate => absurd (live_of_gateFanins gate) dead) rest
      obtain ⟨coherent₁, added, sLive, resolved⟩ :=
        Coherent.resolveReplacement _ substituting.coherent oldLive resolving
      have substituting₁ := substituting.addsLinked added coherent₁
      have oldLive₁ := added.grows.live old oldLive
      have oldBelow := coherent₁.lt_size_of_live oldLive₁
      obtain ⟨-, -, head⟩ := substituting₁.items old new List.mem_cons_self
      obtain ⟨isGate, headRelated⟩ := head oldLive₁
      -- a rebuilt replacement is over the fan-ins of `old`, which it still has
      have rebuiltNodes : ∀ f, net.gateFanins old = some f → net₁.MajorityOf f s →
          s.node ∈ net₁.faninNodes old ∨ ((net₁.faninNodes s.node).Perm (net₁.faninNodes old) ∧
            net₁.table.linkedAt s.node.id = true) := fun f gate majority => by
        rw [← added.grows.gates old (substituting.coherent.lt_size_of_live oldLive)] at gate
        exact majority.nodes gate
      -- the replacement found is related to `old`, and leads away from what the item avoided
      have related : net₁.Related old s.node := by
        rcases resolved with ⟨rfl, chase⟩ | ⟨f, gate, majority⟩
        · exact headRelated s chase sLive
        · exact (rebuiltNodes f gate majority).imp_right (·.1)
      have sAvoids : ∀ p f, net₁.gateFanins p = some f → net₁.table.linkedAt p.id = false →
          (net₁.faninNodes old).Perm (net₁.faninNodes p) → net₁.LeadsAway done new p →
          s.node ≠ p := by
        intro p f gate unlinked same avoids
        rcases resolved with ⟨rfl, chase⟩ | ⟨f', gate', majority⟩
        · exact avoids s chase sLive
        · rcases rebuiltNodes f' gate' majority with member | ⟨-, linked⟩
          · exact coherent₁.ne_of_related (.inl (same.mem_iff.mp member)) unlinked
          · exact coherent₁.ne_of_related (.inr linked) unlinked
      rcases outcome with ⟨onOld, rest⟩ |
        ⟨apart, net₂, ps, work', net₃, net₄, redirecting, reading, loop, takingOut, rest⟩
      · -- a replacement that leads back to `old`: `old` was linked, so dropping the item is safe
        refine Substituting.substituteLoop fuel (substituting₁.pop fun f gate => ?_) rest
        cases linked : net₁.table.linkedAt old.id with
        | true => rfl
        | false =>
            have avoids := (substituting₁.awaited old f gate linked).top oldLive₁ (List.Perm.refl _)
            exact absurd onOld (sAvoids old f gate linked (List.Perm.refl _) avoids)
      · obtain ⟨pushed, rfl, effect⟩ := coherent₁.substitutes oldLive₁ sLive apart
          (coherent₁.not_reaches_of_related related apart) redirecting reading loop takingOut
        exact Substituting.substituteLoop fuel (effect.substituting substituting₁.settled
          (fun p r member => substituting₁.items p r (List.mem_cons_of_mem _ member))
          substituting₁.awaited oldLive₁ oldBelow sLive (coherent₁.lt_size_of_live sLive) apart
          (.inr ⟨isGate, related⟩) sAvoids) rest

-----------------------------------------------------------------------------------------
-- Every mutation keeps a network well formed
-----------------------------------------------------------------------------------------

/-- Substituting a node of a well-formed network by a live signal on the node itself or on a
node outside its fan-out keeps the network well formed. -/
theorem WellFormed.substituteNode (wf : net.WellFormed) {old : Node} {new : Signal}
    (newLive : net.Live new.node) (outside : new.node = old ∨ ¬ net.Reaches new.node old)
    {u : Unit} (run : Returns (substituteNode old new) net u net') : net'.WellFormed := by
  unfold Network.substituteNode at run
  obtain ⟨fuel, positive⟩ : ∃ fuel : Nat, substituteFuel = fuel + 1 :=
    Nat.exists_eq_add_one_of_ne_zero
      (by unfold substituteFuel; exact Nat.pos_iff_ne_zero.mp (Nat.two_pow_pos 64))
  rw [positive] at run
  -- a well-formed network has no unlinked gate
  have noneUnlinked : ∀ p f, net.gateFanins p = some f → net.table.linkedAt p.id = false →
      False := fun p f gate unlinked => by
    rw [wf.allLinked p f gate] at unlinked
    cases unlinked
  rcases substituteLoop_cases run with ⟨-, rest⟩ | ⟨oldLive, s, net₁, resolving, outcome⟩
  · rw [substituteLoop_nil rest]
    exact wf
  obtain ⟨sNew, netSame⟩ := resolveReplacement_of_live newLive resolving
  subst s net₁
  rcases outcome with ⟨-, rest⟩ |
    ⟨apart, net₂, ps, work', net₃, net₄, redirecting, reading, loop, takingOut, rest⟩
  · rw [substituteLoop_nil rest]
    exact wf
  obtain ⟨pushed, rfl, effect⟩ := wf.substitutes oldLive newLive apart
    (outside.resolve_left apart) redirecting reading loop takingOut
  -- nothing is recorded yet, and no gate waits
  have awaited : ∀ p f, net.gateFanins p = some f → net.table.linkedAt p.id = false →
      net.Awaits ∅ [(old, new)] p := fun p f gate unlinked =>
    absurd (noneUnlinked p f gate unlinked) id
  have substituting := effect.substituting (fun k u found => by simp at found)
    (fun p r member => absurd member List.not_mem_nil) awaited oldLive
    (wf.lt_size_of_live oldLive) newLive (wf.lt_size_of_live newLive) apart (.inl rfl)
    (fun p f gate unlinked _ _ => absurd (noneUnlinked p f gate unlinked) id)
  rw [List.append_nil] at substituting rest
  exact substituting.substituteLoop fuel rest

/-- Taking a node out of a well-formed network keeps it well formed: the gates that stay keep
their links. -/
theorem WellFormed.takeOutNode (wf : net.WellFormed) {n : Node} {u : Unit}
    (run : Returns (Network.takeOutNode n) net u net') : net'.WellFormed := by
  obtain ⟨coherent', thins, -⟩ := wf.toCoherent.takeOutNode run
  refine ⟨coherent', fun g f gate => ?_⟩
  have live := live_of_gateFanins gate
  rw [thins.gates g live] at gate
  rw [thins.links g.id live]
  exact wf.allLinked g f gate

-----------------------------------------------------------------------------------------
-- What well-formedness gives
-----------------------------------------------------------------------------------------

/-- In a well-formed network `createMaj` over the fan-ins of a live gate returns that gate, from
every journal, and changes nothing: the fan-ins are in normal form and the table finds the gate. -/
theorem WellFormed.always_createMaj_gate (wf : net.WellFormed) {g : Node} {f : Fanins}
    (gate : net.gateFanins g = some f) :
    Always (Network.createMaj f.a f.b f.c) net (Signal.make g false) net :=
  always_createMaj (.inr ⟨f, false, g, false, wf.normal g f gate (wf.allLinked g f gate),
    wf.addGate_of_find_some (wf.find_gate gate), rfl⟩)

-----------------------------------------------------------------------------------------
-- Every mutation keeps a network well formed
-----------------------------------------------------------------------------------------

/-- The operations that change a network in place, with their operands. Conjunction,
disjunction and exclusive or are runs of `createMaj`. -/
inductive Mutation where
  | createPi
  | createPo (f : Signal)
  | createMaj (a b c : Signal)
  | substituteNode (old : Node) (new : Signal)
  | takeOutNode (n : Node)

namespace Mutation

/-- Running a mutation, its result dropped. -/
def run : Mutation → NetM Unit
  | createPi => update fun net => Prod.snd <$> net.createPi
  | createPo f => update fun net => Prod.snd <$> net.createPo f
  | createMaj a b c => do
      let _ ← Network.createMaj a b c
      pure ()
  | substituteNode old new => Network.substituteNode old new
  | takeOutNode n => Network.takeOutNode n

/-- What a mutation asks of its operands: outputs and gates over live nodes, and a replacement
that is live and is the node itself or lies outside its fan-out. -/
def Admissible (net : Network) : Mutation → Prop
  | createPi => True
  | createPo f => net.Live f.node
  | createMaj a b c => ∀ t ∈ [a, b, c], net.Live t.node
  | substituteNode old new => net.Live new.node ∧ (new.node = old ∨ ¬ net.Reaches new.node old)
  | takeOutNode _ => True

/-- A run of `createMaj` is a run of its mutation. -/
theorem returns_createMaj {a b c s : Signal} {net net' : Network}
    (run : Returns (Network.createMaj a b c) net s net') : Returns (createMaj a b c).run net () net' :=
  ((always_of_returns_createMaj run).bind (always_pure () net')).returns

end Mutation

/-- Well-formedness is an invariant of every mutation: the empty network is well formed, and a
mutation with admissible operands leaves a well-formed network well formed. In a well-formed
network `createMaj` over the fan-ins of a live gate returns that gate and changes nothing, and
the constant, the inputs and the live gates are distinct nodes, so the count of dead nodes never
runs below zero. -/
theorem wellFormed_invariant : Network.empty.WellFormed ∧
    (∀ (m : Mutation) {net net' : Network} {u : Unit}, net.WellFormed → m.Admissible net →
      Returns m.run net u net' → net'.WellFormed) ∧
    ∀ net : Network, net.WellFormed →
      (∀ g f, net.gateFanins g = some f →
        Always (Network.createMaj f.a f.b f.c) net (Signal.make g false) net) ∧
      1 + net.inputs.size + net.numGates ≤ net.size ∧
      net.numDead = .ok (net.size - 1 - net.inputs.size - net.numGates) := by
  refine ⟨wellFormed_empty, fun m net net' u wf admissible run => ?_, fun net wf =>
    ⟨fun g f gate => wf.always_createMaj_gate gate, wf.counts_le_size, wf.numDead_eq⟩⟩
  cases m with
  | createPi =>
      have stored := returns_update.mp run
      cases created : net.createPi with
      | error e => simp [created, Functor.map, Except.map] at stored
      | ok p =>
          obtain ⟨room, rfl⟩ := createPi_eq_ok_iff.mp created
          simp only [created, Functor.map, Except.map, Except.ok.injEq] at stored
          subst stored
          exact wf.addInput room
  | createPo f =>
      have stored := returns_update.mp run
      cases created : net.createPo f with
      | error e => simp [created, Functor.map, Except.map] at stored
      | ok p =>
          obtain ⟨k, net₁⟩ := p
          -- the output was added, so the node had room for one more use
          obtain ⟨r, found, room, -, -⟩ := createPo_eq_ok_iff.mp created
          obtain ⟨net₂, created', wf₂⟩ := wf.createPo admissible fun r' uses => by
            rw [(refsOf_eq_ok.mp found).2, Option.some.injEq] at uses
            exact uses ▸ room
          rw [created, Except.ok.injEq, Prod.mk.injEq] at created'
          simp only [created, Functor.map, Except.map, Except.ok.injEq] at stored
          rw [← stored, created'.2]
          exact wf₂
  | createMaj a b c =>
      obtain ⟨s, net₁, creating, rest⟩ := run.bind
      obtain ⟨-, rfl⟩ := returns_pure.mp rest
      exact (wf.createMaj admissible creating).1
  | substituteNode old new => exact wf.substituteNode admissible.1 admissible.2 run
  | takeOutNode n => exact wf.takeOutNode run

/-- On a well-formed network whose gates are `a ∧ b` (node 3), `a ∨ b` (node 4) and their
conjunction (node 5), with one output, on node 5, the substitution of node 5 by node 3 returns
from every journal: no gate uses node 5, and node 3 has room for the output's use. -/
theorem WellFormed.always_substitute_redundant_gate (wf : net.WellFormed)
    (gate₃ : net.gateFanins ⟨3⟩ = some ⟨⟨0⟩, ⟨2⟩, ⟨4⟩⟩) (gate₄ : net.gateFanins ⟨4⟩ = some ⟨⟨1⟩, ⟨2⟩, ⟨4⟩⟩)
    (gate₅ : net.gateFanins ⟨5⟩ = some ⟨⟨0⟩, ⟨6⟩, ⟨8⟩⟩)
    (others : ∀ g : Node, g.id < 3 ∨ 5 < g.id → net.gateFanins g = none)
    (outputs : net.outputs = #[Signal.make ⟨5⟩ false]) (size : net.size = 6) (room : net.Room 1) :
    ∃ net', Always (Network.substituteNode ⟨5⟩ (Signal.make ⟨3⟩ false)) net () net' := by
  have unused : ∀ g, net.slots g ⟨5⟩ = 0 := fun g => by
    by_cases far : g.id < 3 ∨ 5 < g.id
    · simp [slots, others g far]
    obtain rfl | rfl | rfl : g = ⟨3⟩ ∨ g = ⟨4⟩ ∨ g = ⟨5⟩ := by
      obtain ⟨i⟩ := g
      dsimp only at far
      simp only [Node.mk.injEq]
      omega
    · rw [slots_of_gateFanins gate₃]
      decide
    · rw [slots_of_gateFanins gate₄]
      decide
    · rw [slots_of_gateFanins gate₅]
      decide
  exact wf.toCoherent.always_substituteNode_of_unused
    (show (⟨5⟩ : Node).id < net.size by rw [size]; decide)
    (live_of_gateFanins gate₃ : net.Live (Signal.make ⟨3⟩ false).node) (by decide) unused
    (fun r uses => by rw [outputs]; exact room.2 ⟨3⟩ r uses)

/-- Along the build of `(a ∧ b) ∧ (a ∨ b)` over two inputs with an output on it, the
substitution of its top gate by `a ∧ b`, which it equals, and the take-out of that gate with
the gates below it before the output is added, every network is well formed. On the built
network `a ∧ b` is found again over its fan-ins, and no node is dead. -/
theorem wellFormed_along_substitution :
    ∃ net₃ net₄ net₅ net₆ net₇ net₈ : Network,
      Returns Mutation.createPi.run Network.empty () Network.empty.addInput.2 ∧
      Returns Mutation.createPi.run Network.empty.addInput.2 () Network.empty.addInput.2.addInput.2 ∧
      Returns (Mutation.createMaj Signal.zero (Signal.make ⟨1⟩ false) (Signal.make ⟨2⟩ false)).run
        Network.empty.addInput.2.addInput.2 () net₃ ∧
      Returns (Mutation.createMaj Signal.one (Signal.make ⟨1⟩ false) (Signal.make ⟨2⟩ false)).run
        net₃ () net₄ ∧
      Returns (Mutation.createMaj Signal.zero (Signal.make ⟨3⟩ false) (Signal.make ⟨4⟩ false)).run
        net₄ () net₅ ∧
      Returns (Mutation.createPo (Signal.make ⟨5⟩ false)).run net₅ () net₆ ∧
      Returns (Mutation.substituteNode ⟨5⟩ (Signal.make ⟨3⟩ false)).run net₆ () net₇ ∧
      Returns (Mutation.takeOutNode ⟨5⟩).run net₅ () net₈ ∧
      net₃.WellFormed ∧ net₄.WellFormed ∧ net₅.WellFormed ∧ net₆.WellFormed ∧ net₇.WellFormed ∧
      net₈.WellFormed ∧
      Always (createAnd (Signal.make ⟨1⟩ false) (Signal.make ⟨2⟩ false)) net₆
        (Signal.make ⟨3⟩ false) net₆ ∧
      net₆.numDead = .ok 0 := by
  obtain ⟨net₃, net₄, net₅, net₆, run₃, run₄, run₅, created, -, gate₃, gate₄, gate₅, others, outputs,
    inputs, size, numGates, room⟩ := andOr_network
  obtain ⟨empty, preserved, gives⟩ := wellFormed_invariant
  -- the two inputs
  have input₁ : Returns Mutation.createPi.run Network.empty () Network.empty.addInput.2 :=
    returns_update.mpr (by rw [createPi_eq_ok (by decide)]; rfl)
  have input₂ : Returns Mutation.createPi.run Network.empty.addInput.2 ()
      Network.empty.addInput.2.addInput.2 :=
    returns_update.mpr (by rw [createPi_eq_ok (by decide)]; rfl)
  have wf₂ := preserved .createPi (preserved .createPi empty trivial input₁) trivial input₂
  -- the three gates, each over nodes live where it is made
  have live₃ : ∀ t ∈ [Signal.zero, Signal.make ⟨1⟩ false, Signal.make ⟨2⟩ false],
      (Network.empty.addInput.2.addInput.2).Live t.node :=
    live_three ⟨_, rfl, rfl⟩ ⟨_, rfl, rfl⟩ ⟨_, rfl, rfl⟩
  have wf₃ := preserved (.createMaj _ _ _) wf₂ live₃ (Mutation.returns_createMaj run₃)
  obtain ⟨-, grows₃, made₃⟩ := wf₂.createMaj live₃ run₃
  have live₄ : ∀ t ∈ [Signal.one, Signal.make ⟨1⟩ false, Signal.make ⟨2⟩ false], net₃.Live t.node :=
    live_three (grows₃.live _ ⟨_, rfl, rfl⟩) (grows₃.live _ ⟨_, rfl, rfl⟩) (grows₃.live _ ⟨_, rfl, rfl⟩)
  have wf₄ := preserved (.createMaj _ _ _) wf₃ live₄ (Mutation.returns_createMaj run₄)
  obtain ⟨-, grows₄, made₄⟩ := wf₃.createMaj live₄ run₄
  have live₅ : ∀ t ∈ [Signal.zero, Signal.make ⟨3⟩ false, Signal.make ⟨4⟩ false], net₄.Live t.node :=
    live_three (grows₄.live _ (grows₃.live _ ⟨_, rfl, rfl⟩)) (grows₄.live _ made₃) made₄
  have wf₅ := preserved (.createMaj _ _ _) wf₄ live₅ (Mutation.returns_createMaj run₅)
  obtain ⟨-, -, made₅⟩ := wf₄.createMaj live₅ run₅
  -- the output
  have output : Returns (Mutation.createPo (Signal.make ⟨5⟩ false)).run net₅ () net₆ :=
    returns_update.mpr (by rw [created]; rfl)
  have wf₆ := preserved (.createPo _) wf₅ made₅ output
  have newLive : net₆.Live (Signal.make ⟨3⟩ false).node := live_of_gateFanins gate₃
  have below : ¬ net₆.Reaches ⟨3⟩ ⟨5⟩ :=
    wf₆.not_reaches_of_mem_faninNodes (by rw [faninNodes_of_gateFanins gate₅]; decide)
  obtain ⟨net₇, substituting⟩ :=
    wf₆.always_substitute_redundant_gate gate₃ gate₄ gate₅ others outputs size room
  have wf₇ := preserved (.substituteNode ⟨5⟩ (Signal.make ⟨3⟩ false)) wf₆ ⟨newLive, .inr below⟩
    substituting.returns
  -- taking the top gate out before the output is added
  obtain ⟨net₈, takingOut⟩ := wf₅.toCoherent.always_takeOutNode (wf₅.lt_size_of_live made₅)
  have wf₈ := preserved (.takeOutNode _) wf₅ trivial takingOut.returns
  obtain ⟨found, -, dead⟩ := gives net₆ wf₆
  refine ⟨net₃, net₄, net₅, net₆, net₇, net₈, input₁, input₂, Mutation.returns_createMaj run₃,
    Mutation.returns_createMaj run₄, Mutation.returns_createMaj run₅, output, substituting.returns,
    takingOut.returns, wf₃, wf₄, wf₅, wf₆, wf₇, wf₈, found ⟨3⟩ _ gate₃, ?_⟩
  rw [dead, size, inputs, numGates]
  rfl

-----------------------------------------------------------------------------------------
-- Substitution keeps the values
-----------------------------------------------------------------------------------------

/-- `net'` computes under the input assignment `x` what `net` computes under `val`: it has the
same inputs, and a valuation consistent with it gives every node of `net` and every output the
value that `val` gives them. -/
def KeepsValues (x : Nat → Bool) (net : Network) (val : Node → Bool) (net' : Network) : Prop :=
  net'.inputs = net.inputs ∧ ∃ val', net'.Consistent x val' ∧
    (∀ n : Node, n.id < net.size → val' n = val n) ∧
    ∀ j : Nat, (net'.outputs[j]?).map (Signal.eval val') = (net.outputs[j]?).map (Signal.eval val)

/-- Substituting a node of a well-formed network by a live signal that has its value keeps the
value of every node and of every output, over the same inputs: the substitution collapses,
renormalizes and merges gates, but never changes what the network computes. -/
theorem substituteNode_keeps_values {net net' : Network} (wf : net.WellFormed) {old : Node}
    {new : Signal} (oldNode : old.id < net.size) (newLive : net.Live new.node) {x : Nat → Bool}
    {val : Node → Bool} (consistent : net.Consistent x val) (equivalent : new.eval val = val old)
    {u : Unit} (run : Returns (substituteNode old new) net u net')
    : KeepsValues x net val net' := by
  have start := Tracks.start wf.sound consistent
    ⟨oldNode, wf.lt_size_of_live newLive, equivalent⟩
  obtain ⟨val', _, tracks⟩ := Tracks.substituteLoop _ start run
  exact ⟨tracks.inputs, val', tracks.consistent, tracks.agree, tracks.outputs⟩

/-- In the network of `(a ∧ b) ∧ (a ∨ b)`, with both inputs set, substituting the top gate by
`a ∧ b`, which it equals, keeps the value of every node and of the output. -/
theorem substituteNode_keeps_values_of_redundant_gate :
    ∃ net net' : Network, net.gateFanins ⟨5⟩ = some ⟨⟨0⟩, ⟨6⟩, ⟨8⟩⟩ ∧
      net.outputs = #[Signal.make ⟨5⟩ false] ∧
      Returns (substituteNode ⟨5⟩ (Signal.make ⟨3⟩ false)) net () net' ∧
      ∃ val, net.Consistent (fun _ => true) val ∧ KeepsValues (fun _ => true) net val net' := by
  obtain ⟨-, -, -, net, -, -, -, -, wf, gate₃, gate₄, gate₅, others, outputs, inputs, size, -, room⟩ :=
    andOr_network
  obtain ⟨net', substituting⟩ :=
    wf.always_substitute_redundant_gate gate₃ gate₄ gate₅ others outputs size room
  obtain ⟨val, consistent⟩ := wf.toCoherent.exists_consistent (fun _ => true)
  -- both inputs are set, so `a ∧ b` and `a ∨ b` hold, and so does their conjunction
  have v₀ : val ⟨0⟩ = false := consistent.constant
  have v₁ : val ⟨1⟩ = true := consistent.inputs 0 ⟨1⟩ (by rw [inputs]; rfl)
  have v₂ : val ⟨2⟩ = true := consistent.inputs 1 ⟨2⟩ (by rw [inputs]; rfl)
  have v₃ := consistent.gates ⟨3⟩ _ gate₃
  have v₄ := consistent.gates ⟨4⟩ _ gate₄
  have v₅ := consistent.gates ⟨5⟩ _ gate₅
  simp only [Fanins.eval, Signal.eval, Signal.node, Signal.isComplemented, v₀, v₁, v₂] at v₃ v₄ v₅
  have equivalent : (Signal.make ⟨3⟩ false).eval val = val ⟨5⟩ := by
    rw [Signal.eval_make, v₅, v₃, v₄]
    decide
  exact ⟨net, net', gate₅, outputs, substituting.returns, val, consistent,
    substituteNode_keeps_values wf (by rw [size]; decide)
      (live_of_gateFanins gate₃ : net.Live (Signal.make ⟨3⟩ false).node) consistent equivalent
      substituting.returns⟩

end Network

end MajorityGraph
