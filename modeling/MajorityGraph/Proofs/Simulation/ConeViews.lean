import MajorityGraph.ConeView
import MajorityGraph.Proofs.Simulation.Denotation

/-! How a cone-of-influence view is built, read back from a successful build. -/

namespace MajorityGraph

/-! ### Reading successful runs back -/

namespace Logged

variable {α β : Type}

theorem runFrom_bind_eq_ok {x : Logged α} {f : α → Logged β} {j j' : Journal} {b : β}
    (run : (x >>= f).runFrom j = (.ok b, j')) :
    ∃ a j₁, x.runFrom j = (.ok a, j₁) ∧ (f a).runFrom j₁ = (.ok b, j') := by
  simp only [runFrom, ExceptT.run_bind, StateT.run_bind] at run ⊢
  rcases found : x.run.run j with ⟨_ | a, j₁⟩
  · rw [found] at run
    cases run
  · rw [found] at run
    exact ⟨a, j₁, rfl, run⟩

theorem runFrom_orFail_eq_ok {e : Except Fault α} {j j' : Journal} {a : α}
    (run : (orFail e : Logged α).runFrom j = (.ok a, j')) : e = .ok a := by
  cases e with
  | error f => cases run
  | ok b => cases run; rfl

theorem runFrom_pure_eq_ok {a b : α} {j j' : Journal} (run : (pure a : Logged α).runFrom j = (.ok b, j')) :
    a = b ∧ j = j' := by
  cases run
  exact ⟨rfl, rfl⟩

/-- A property of the loop state that every successful pass carries to the next position, and
that holds at the start, holds after a successful loop; no pass stops the loop early. -/
theorem forIn_inv {l : List α} {init : β} {body : α → β → Logged (ForInStep β)}
    (inv : Nat → β → Prop)
    (step : ∀ i (lt : i < l.length) b s j j', inv i b → (body l[i] b).runFrom j = (.ok s, j') →
      ∃ b', s = .yield b' ∧ inv (i + 1) b')
    (start : inv 0 init) {b : β} {j j' : Journal} (run : (forIn l init body).runFrom j = (.ok b, j')) :
    inv l.length b := by
  induction l generalizing init inv j with
  | nil =>
    obtain ⟨rfl, -⟩ := runFrom_pure_eq_ok run
    exact start
  | cons a rest ih =>
    rw [List.forIn_cons] at run
    obtain ⟨s, j₁, first, afterFirst⟩ := runFrom_bind_eq_ok run
    obtain ⟨b', rfl, kept⟩ := step 0 (by simp) init s j j₁ start first
    exact ih (fun i => inv (i + 1)) (fun i lt c => step (i + 1) (by simp; omega) c) kept afterFirst

end Logged

namespace Except

variable {ε α β : Type}

/-- A property of the fold state that every successful step carries to the next position holds
after a successful fold. -/
theorem foldlM_inv {l : List α} {init : β} {f : β → α → Except ε β} (inv : Nat → β → Prop)
    (step : ∀ i (lt : i < l.length) b b', inv i b → f b l[i] = .ok b' → inv (i + 1) b')
    (start : inv 0 init) {b : β} (run : l.foldlM f init = .ok b) : inv l.length b := by
  induction l generalizing init inv with
  | nil =>
    cases run
    exact start
  | cons a rest ih =>
    rw [List.foldlM_cons] at run
    cases first : f init a with
    | error e => rw [first] at run; cases run
    | ok b' =>
      rw [first] at run
      exact ih (fun i => inv (i + 1)) (fun i lt c c' => step (i + 1) (by simp; omega) c c')
        (step 0 (by simp) init b' start first) run

/-- The same for a loop whose passes never stop it early. -/
theorem forIn_inv {l : List α} {init : β} {body : α → β → Except ε (ForInStep β)}
    (inv : Nat → β → Prop)
    (step : ∀ i (lt : i < l.length) b s, inv i b → body l[i] b = .ok s →
      ∃ b', s = .yield b' ∧ inv (i + 1) b')
    (start : inv 0 init) {b : β} (run : forIn l init body = .ok b) : inv l.length b := by
  induction l generalizing init inv with
  | nil =>
    cases run
    exact start
  | cons a rest ih =>
    rw [List.forIn_cons] at run
    cases first : body a init with
    | error e => rw [first] at run; cases run
    | ok s =>
      rw [first] at run
      obtain ⟨b', rfl, kept⟩ := step 0 (by simp) init s start first
      exact ih (fun i => inv (i + 1)) (fun i lt c => step (i + 1) (by simp; omega) c) kept run

end Except

namespace ConeView

variable {net : Network}

/-! ### The walk from the pivots -/

section Walk

/-- What the walk keeps: every collected node is visited and is no constant, every visited id
but 0 belongs to a collected node, no node is collected twice, and a collected node that is no
input has each fan-in visited or waiting on the stack. -/
structure Collecting (net : Network) (stack : List Node) (visited : Std.HashMap Nat Unit)
    (acc : Array Node) : Prop where
  marked : ∀ n ∈ acc, n.id ∈ visited
  nonzero : ∀ n ∈ acc, n.id ≠ 0
  covered : ∀ i ∈ visited, i = 0 ∨ ∃ n ∈ acc, n.id = i
  nodup : acc.toList.Nodup
  closed : ∀ n ∈ acc, net.isPi n = .ok false → ∀ fs, net.fanins n = .ok fs →
    ∀ f ∈ fs, f.node.id ∈ visited ∨ f.node ∈ stack

theorem Collecting.empty (stack : List Node) : Collecting net stack {} #[] where
  marked := by simp
  nonzero := by simp
  covered := by simp
  nodup := by simp
  closed := by simp

/-- The head of the stack visited: the fan-ins that waited on it are now visited. -/
theorem Collecting.visit {n : Node} {stack : List Node} {visited : Std.HashMap Nat Unit}
    {acc : Array Node} (inv : Collecting net (n :: stack) visited acc) (mem : n.id ∈ visited) :
    Collecting net stack visited acc where
  marked := inv.marked
  nonzero := inv.nonzero
  covered := inv.covered
  nodup := inv.nodup
  closed := by
    intro m member input fs fanned f fanin
    rcases inv.closed m member input fs fanned f fanin with seen | waiting
    · exact .inl seen
    · rcases List.mem_cons.mp waiting with rfl | later
      · exact .inl mem
      · exact .inr later

theorem Collecting.insert_constant {n : Node} {stack : List Node} {visited : Std.HashMap Nat Unit}
    {acc : Array Node} (inv : Collecting net (n :: stack) visited acc) (zero : n.id = 0) :
    Collecting net (n :: stack) (visited.insert n.id ()) acc where
  marked := fun m member => Std.HashMap.mem_insert.mpr (.inr (inv.marked m member))
  nonzero := inv.nonzero
  covered := by
    intro i mem
    rcases Std.HashMap.mem_insert.mp mem with same | old
    · exact .inl (by rw [← beq_iff_eq.mp same, zero])
    · exact inv.covered i old
  nodup := inv.nodup
  closed := fun m member input fs fanned f fanin =>
    (inv.closed m member input fs fanned f fanin).imp_left fun seen => Std.HashMap.mem_insert.mpr (.inr seen)

variable {n : Node} {stack : List Node} {visited : Std.HashMap Nat Unit} {acc : Array Node}

/-- Collecting a fresh node other than the constant: it is visited and collected once, and the
stack that follows keeps the old one. -/
theorem Collecting.collect (inv : Collecting net (n :: stack) visited acc) (fresh : n.id ∉ visited)
    (nonzero : n.id ≠ 0) {stack' : List Node} (kept : ∀ m ∈ stack, m ∈ stack')
    (own : net.isPi n = .ok false → ∀ fs, net.fanins n = .ok fs →
      ∀ f ∈ fs, f.node.id ∈ visited.insert n.id () ∨ f.node ∈ stack') :
    Collecting net stack' (visited.insert n.id ()) (acc.push n) where
  marked := by
    intro m member
    rcases Array.mem_push.mp member with old | rfl
    · exact Std.HashMap.mem_insert.mpr (.inr (inv.marked m old))
    · exact Std.HashMap.mem_insert_self
  nonzero := by
    intro m member
    rcases Array.mem_push.mp member with old | rfl
    · exact inv.nonzero m old
    · exact nonzero
  covered := by
    intro i mem
    rcases Std.HashMap.mem_insert.mp mem with same | old
    · exact .inr ⟨n, Array.mem_push_self, beq_iff_eq.mp same⟩
    · rcases inv.covered i old with zero | ⟨m, member, rfl⟩
      · exact .inl zero
      · exact .inr ⟨m, Array.mem_push_of_mem _ member, rfl⟩
  nodup := by
    have absent : ∀ m ∈ acc, m ≠ n := fun m member same => fresh (same ▸ inv.marked m member)
    rw [Array.toList_push, List.nodup_append]
    exact ⟨inv.nodup, List.nodup_singleton n, by simpa using absent⟩
  closed := by
    intro m member input fs fanned f fanin
    rcases Array.mem_push.mp member with old | rfl
    · rcases inv.closed m old input fs fanned f fanin with seen | waiting
      · exact .inl (Std.HashMap.mem_insert.mpr (.inr seen))
      · rcases List.mem_cons.mp waiting with same | later
        · exact .inl (same ▸ Std.HashMap.mem_insert_self)
        · exact .inr (kept _ later)
    · exact own input fs fanned f fanin

/-- One step of the walk keeps its invariant: it visits the head of the stack, collects it if it
is fresh and no constant, and pushes the unvisited fan-ins of a collected node that is no input. -/
theorem Collecting.step {fuel : Nat} {r : Std.HashMap Nat Unit × Array Node}
    (inv : Collecting net (n :: stack) visited acc)
    (run : collectFrom net (fuel + 1) (n :: stack) visited acc = .ok r) :
    ∃ stack' visited' acc', collectFrom net fuel stack' visited' acc' = .ok r ∧
      Collecting net stack' visited' acc' ∧ (∀ i ∈ visited, i ∈ visited') ∧ n.id ∈ visited' ∧
      ∀ m ∈ stack, m ∈ stack' := by
  rw [collectFrom] at run
  simp only [bind, Except.bind] at run
  split at run
  · rename_i seen
    have mem := Std.HashMap.mem_iff_contains.mpr seen
    exact ⟨stack, visited, acc, run, inv.visit mem, fun _ h => h, mem, fun _ h => h⟩
  rename_i unseen
  have fresh : n.id ∉ visited := fun mem => unseen (Std.HashMap.mem_iff_contains.mp mem)
  have grows : ∀ i ∈ visited, i ∈ visited.insert n.id () :=
    fun _ old => Std.HashMap.mem_insert.mpr (.inr old)
  split at run
  · rename_i zero
    exact ⟨stack, _, acc, run, (inv.insert_constant (beq_iff_eq.mp zero)).visit
      Std.HashMap.mem_insert_self, grows, Std.HashMap.mem_insert_self, fun _ h => h⟩
  rename_i nonzero
  have nonzero : n.id ≠ 0 := fun zero => nonzero (beq_iff_eq.mpr zero)
  split at run
  · cases run
  rename_i b pi
  split at run
  · rename_i input
    refine ⟨stack, _, _, run, inv.collect fresh nonzero (fun _ h => h) ?_, grows,
      Std.HashMap.mem_insert_self, fun _ h => h⟩
    intro gate
    rw [pi, input] at gate
    cases gate
  split at run
  · cases run
  rename_i fs fanned
  refine ⟨_, _, _, run, inv.collect fresh nonzero (fun _ h => List.mem_append_right _ h) ?_, grows,
    Std.HashMap.mem_insert_self, fun _ h => List.mem_append_right _ h⟩
  -- a fan-in not yet visited is pushed
  intro _ fs' fanned' f fanin
  rw [fanned] at fanned'
  cases fanned'
  by_cases seen : (visited.insert n.id ()).contains f.node.id
  · exact .inl (Std.HashMap.mem_iff_contains.mpr seen)
  · refine .inr (List.mem_append_left _ ?_)
    simp only [List.mem_reverse, List.mem_map, List.mem_filter]
    exact ⟨f, ⟨fanin, by simpa using seen⟩, rfl⟩

/-- A successful walk ends with an empty stack and keeps its invariant; the visited set only
grows, and every node of the starting stack is visited at the end. -/
theorem Collecting.run {fuel : Nat} {visited' : Std.HashMap Nat Unit} {acc' : Array Node}
    (inv : Collecting net stack visited acc)
    (run : collectFrom net fuel stack visited acc = .ok (visited', acc')) :
    Collecting net [] visited' acc' ∧ (∀ i ∈ visited, i ∈ visited') ∧ ∀ m ∈ stack, m.id ∈ visited' := by
  induction fuel generalizing stack visited acc with
  | zero => cases run
  | succ fuel ih =>
    cases stack with
    | nil =>
      cases run
      exact ⟨inv, fun _ h => h, fun _ h => absurd h List.not_mem_nil⟩
    | cons n rest =>
      obtain ⟨stack', visited₁, acc₁, run', inv', grows, mem, kept⟩ := inv.step run
      obtain ⟨final, grows', all⟩ := ih inv' run'
      refine ⟨final, fun i old => grows' i (grows i old), fun m member => ?_⟩
      rcases List.mem_cons.mp member with rfl | later
      · exact grows' _ mem
      · exact all m (kept m later)

theorem Collecting.widen {stack' : List Node} (inv : Collecting net stack visited acc)
    (kept : ∀ m ∈ stack, m ∈ stack') : Collecting net stack' visited acc :=
  { inv with
    closed := fun m member input fs fanned f fanin =>
      (inv.closed m member input fs fanned f fanin).imp_right (kept _) }

/-- The walks from the pivots in turn: at the end every pivot is visited, and the collected
nodes hold every fan-in of their members that are no inputs, the constant apart. -/
theorem Collecting.pivots {pivots : Array Node} {fuel : Nat} {visited : Std.HashMap Nat Unit}
    {collected : Array Node}
    (run : pivots.foldlM (fun (x : Std.HashMap Nat Unit × Array Node) p => collectFrom net fuel [p] x.1 x.2)
      ({}, #[]) = .ok (visited, collected)) :
    Collecting net [] visited collected ∧ ∀ p ∈ pivots, p.id ∈ visited := by
  rw [← Array.foldlM_toList] at run
  have done := Except.foldlM_inv
    (fun k (x : Std.HashMap Nat Unit × Array Node) =>
      Collecting net [] x.1 x.2 ∧ ∀ p ∈ pivots.toList.take k, p.id ∈ x.1)
    (fun i lt x x' ⟨inv, earlier⟩ step => by
      have start : Collecting net [pivots.toList[i]] x.1 x.2 := inv.widen (by simp)
      obtain ⟨inv', grows, started⟩ := start.run step
      refine ⟨inv', fun p member => ?_⟩
      rw [List.take_add_one, List.getElem?_eq_getElem lt, Option.toList_some] at member
      rcases List.mem_append.mp member with old | last
      · exact grows _ (earlier p old)
      · exact started p last)
    ⟨Collecting.empty [], by simp⟩ run
  simp only [List.take_length, Array.mem_toList_iff] at done
  exact done

/-- A visited node is the constant or collected. -/
theorem Collecting.collected_of_visited (inv : Collecting net stack visited acc) {m : Node}
    (mem : m.id ∈ visited) : m.id = 0 ∨ m ∈ acc := by
  rcases inv.covered _ mem with zero | ⟨n, member, same⟩
  · exact .inl zero
  · exact .inr (Node.eq_of_id_eq same ▸ member)

end Walk

/-! ### Sorting the collected nodes -/

section Classify

variable {front : List Node} {leaves inner : Array Node} {n : Node}

/-- The collected nodes `front` sorted so far: the leaves are inputs, taken in order from
`front`, the inner nodes are no inputs, and each node of `front` is an input among the leaves or
no input. -/
structure Classified (net : Network) (front : List Node) (leaves inner : Array Node) : Prop where
  sublist : leaves.toList.Sublist front
  inputs : ∀ n ∈ leaves, net.isPi n = .ok true
  gates : ∀ n ∈ inner, net.isPi n = .ok false
  sorted : ∀ n ∈ front, (net.isPi n = .ok true ∧ n ∈ leaves) ∨ net.isPi n = .ok false


theorem Classified.input (classified : Classified net front leaves inner)
    (pi : net.isPi n = .ok true) : Classified net (front ++ [n]) (leaves.push n) inner where
  sublist := by
    rw [Array.toList_push]
    exact classified.sublist.append (List.Sublist.refl _)
  inputs := by
    intro m member
    rcases Array.mem_push.mp member with old | rfl
    · exact classified.inputs m old
    · exact pi
  gates := classified.gates
  sorted := by
    intro m member
    rcases List.mem_append.mp member with old | last
    · exact (classified.sorted m old).imp_left fun ⟨pi, leaf⟩ => ⟨pi, Array.mem_push_of_mem _ leaf⟩
    · rw [List.mem_singleton.mp last]
      exact .inl ⟨pi, Array.mem_push_self⟩

theorem Classified.other (classified : Classified net front leaves inner)
    (pi : net.isPi n = .ok false) {inner' : Array Node} (grown : ∀ m ∈ inner', m ∈ inner ∨ m = n) :
    Classified net (front ++ [n]) leaves inner' where
  sublist := classified.sublist.trans (List.sublist_append_left _ _)
  inputs := classified.inputs
  gates := by
    intro m member
    rcases grown m member with old | rfl
    · exact classified.gates m old
    · exact pi
  sorted := by
    intro m member
    rcases List.mem_append.mp member with old | last
    · exact classified.sorted m old
    · rw [List.mem_singleton.mp last]
      exact .inr pi

/-- Sorting the collected nodes in order: an input joins the leaves, and any other node joins
the inner nodes unless it is a pivot. -/
theorem classified_of_forIn {pivots collected : Array Node} {j j' : Journal}
    (run : Logged.runFrom (forIn collected ((#[], #[]) : Array Node × Array Node) fun n s =>
      (orFail (net.isPi n) >>= fun pi =>
        if pi then pure (ForInStep.yield (s.1.push n, s.2))
        else if !pivots.contains n then pure (ForInStep.yield (s.1, s.2.push n))
        else pure (ForInStep.yield (s.1, s.2)) : Logged (ForInStep (Array Node × Array Node)))) j =
      (.ok (leaves, inner), j')) :
    Classified net collected.toList leaves inner := by
  rw [← Array.forIn_toList] at run
  have done := Logged.forIn_inv
    (fun k (s : Array Node × Array Node) => Classified net (collected.toList.take k) s.1 s.2)
    (fun i lt s step j₁ j₂ classified pass => by
      obtain ⟨pi, j₃, read, rest⟩ := Logged.runFrom_bind_eq_ok pass
      have read := Logged.runFrom_orFail_eq_ok read
      rw [List.take_add_one, List.getElem?_eq_getElem lt, Option.toList_some]
      cases pi with
      | true =>
        rw [if_pos rfl] at rest
        obtain ⟨rfl, -⟩ := Logged.runFrom_pure_eq_ok rest
        exact ⟨_, rfl, classified.input read⟩
      | false =>
        rw [if_neg Bool.false_ne_true] at rest
        split at rest
        · obtain ⟨rfl, -⟩ := Logged.runFrom_pure_eq_ok rest
          exact ⟨_, rfl, classified.other read fun m member => Array.mem_push.mp member⟩
        · obtain ⟨rfl, -⟩ := Logged.runFrom_pure_eq_ok rest
          exact ⟨_, rfl, classified.other read fun m member => .inl member⟩)
    ⟨by simp, by simp, by simp, by simp⟩ run
  rw [List.take_length] at done
  exact done

/-- Adding the pivots to the inner nodes adds only pivots that are no inputs. -/
theorem gates_of_forIn_pivots {pivots inner' : Array Node} {seen : Std.HashMap Nat Unit}
    {j j' : Journal} (gates : ∀ n ∈ inner, net.isPi n = .ok false)
    (run : Logged.runFrom (forIn pivots ((inner, {}) : Array Node × Std.HashMap Nat Unit) fun p s =>
      (if p.id != 0 then orFail (net.isPi p) >>= fun pi =>
          if !pi && !s.2.contains p.id then pure (ForInStep.yield (s.1.push p, s.2.insert p.id ()))
          else pure (ForInStep.yield (s.1, s.2))
        else pure (ForInStep.yield (s.1, s.2)) : Logged (ForInStep (Array Node × Std.HashMap Nat Unit)))) j =
      (.ok (inner', seen), j')) :
    ∀ n ∈ inner', net.isPi n = .ok false := by
  rw [← Array.forIn_toList] at run
  refine Logged.forIn_inv (fun _ (s : Array Node × Std.HashMap Nat Unit) => ∀ n ∈ s.1, net.isPi n = .ok false)
    (fun i lt s step j₁ j₂ kept pass => ?_) gates run
  split at pass
  · obtain ⟨pi, j₃, read, rest⟩ := Logged.runFrom_bind_eq_ok pass
    have read := Logged.runFrom_orFail_eq_ok read
    split at rest
    · rename_i added
      obtain ⟨rfl, -⟩ := Logged.runFrom_pure_eq_ok rest
      refine ⟨_, rfl, fun n member => ?_⟩
      rcases Array.mem_push.mp member with old | rfl
      · exact kept n old
      · simp only [Bool.and_eq_true, Bool.not_eq_true'] at added
        rw [read, added.1]
    · obtain ⟨rfl, -⟩ := Logged.runFrom_pure_eq_ok rest
      exact ⟨_, rfl, kept⟩
  · obtain ⟨rfl, -⟩ := Logged.runFrom_pure_eq_ok pass
    exact ⟨_, rfl, kept⟩

end Classify

/-! ### The topological sort -/

section TopologicalSort

/-- What the sort keeps about the inner nodes `inner`: only they are white, the stack holds
them, and the order lists them. -/
structure Sorting (inner : Array Node) (stack : List (Node × Nat)) (colour : Std.HashMap Nat Colour)
    (order : Array Node) : Prop where
  white : ∀ i, colour[i]? = some .white → ∃ m ∈ inner, m.id = i
  stack : ∀ e ∈ stack, e.1 ∈ inner
  order : ∀ m ∈ order, m ∈ inner

variable {inner : Array Node} {colour : Std.HashMap Nat Colour}

/-- Painting an inner node white, or any node another colour, keeps the white nodes inner. -/
theorem white_insert (white : ∀ i, colour[i]? = some .white → ∃ m ∈ inner, m.id = i) {k : Nat}
    {c : Colour} (painted : c = .white → ∃ m ∈ inner, m.id = k) :
    ∀ i, (colour.insert k c)[i]? = some .white → ∃ m ∈ inner, m.id = i := by
  intro i found
  rw [Std.HashMap.getElem?_insert] at found
  split at found
  · rename_i same
    cases found
    rw [← beq_iff_eq.mp same]
    exact painted rfl
  · exact white i found

/-- One step of the sort keeps its invariant. -/
theorem Sorting.step {wrap : Bool} {fuel : Nat} {n : Node} {i : Nat} {stack : List (Node × Nat)}
    {order : Array Node} {r : Std.HashMap Nat Colour × Array Node}
    (inv : Sorting inner ((n, i) :: stack) colour order)
    (run : sortFrom net wrap (fuel + 1) ((n, i) :: stack) colour order = .ok r) :
    ∃ stack' colour' order', sortFrom net wrap fuel stack' colour' order' = .ok r ∧
      Sorting inner stack' colour' order' := by
  have top : n ∈ inner := inv.stack _ List.mem_cons_self
  have rest : ∀ e ∈ stack, e.1 ∈ inner := fun e member => inv.stack e (List.mem_cons_of_mem _ member)
  -- the next fan-in is skipped unless white
  have next : Sorting inner ((n, i + 1) :: stack) colour order :=
    ⟨inv.white, by simpa [top] using rest, inv.order⟩
  rw [sortFrom] at run
  simp only [bind, Except.bind] at run
  split at run
  · cases run
  split at run
  · split at run
    · rename_i f _ _ white
      rw [Std.HashMap.get?_eq_getElem?] at white
      obtain ⟨m, member, same⟩ := inv.white _ white
      have child : f.node ∈ inner := Node.eq_of_id_eq same ▸ member
      refine ⟨_, _, _, run, white_insert inv.white nofun, ?_, inv.order⟩
      simpa [child, top] using rest
    · split at run
      · exact ⟨_, _, _, run, next⟩
      · cases run
    · exact ⟨_, _, _, run, next⟩
  · refine ⟨_, _, _, run, white_insert inv.white nofun, rest, fun m member => ?_⟩
    rcases Array.mem_push.mp member with old | rfl
    · exact inv.order m old
    · exact top

/-- A successful sort lists inner nodes only, and leaves only inner nodes white. -/
theorem Sorting.run {wrap : Bool} {fuel : Nat} {stack : List (Node × Nat)} {order : Array Node}
    {colour' : Std.HashMap Nat Colour} {order' : Array Node} (inv : Sorting inner stack colour order)
    (run : sortFrom net wrap fuel stack colour order = .ok (colour', order')) :
    Sorting inner [] colour' order' := by
  induction fuel generalizing stack colour order with
  | zero => cases run
  | succ fuel ih =>
    cases stack with
    | nil =>
      cases run
      exact inv
    | cons e rest =>
      obtain ⟨n, i⟩ := e
      obtain ⟨stack', colour₁, order₁, run', inv'⟩ := inv.step run
      exact ih inv' run'

/-- The sort lists inner nodes only: the leaves start black and the inner nodes white, and each
walk from a white inner node keeps the sort's invariant. -/
theorem mem_inner_of_topologicalSort {wrap : Bool} {leaves ordered : Array Node}
    (run : topologicalSort net wrap leaves inner = .ok ordered) : ∀ m ∈ ordered, m ∈ inner := by
  simp only [topologicalSort, bind, Except.bind] at run
  have none : ∀ i, ((∅ : Std.HashMap Nat Colour).insert 0 .black)[i]? = some .white →
      ∃ m ∈ inner, m.id = i :=
    white_insert (fun i found => by simp at found) nofun
  split at run
  · cases run
  rename_i painted
  rw [← Array.forIn_toList] at painted
  have blackened := Except.forIn_inv
    (fun _ (colours : Std.HashMap Nat Colour) => ∀ i, colours[i]? = some .white →
      ∃ m ∈ inner, m.id = i)
    (fun _ _ colours _ white pass => by
      cases pass
      exact ⟨_, rfl, white_insert white nofun⟩) none painted
  split at run
  · cases run
  rename_i whitened
  rw [← Array.forIn_toList] at whitened
  have whitened := Except.forIn_inv
    (fun _ (colours : Std.HashMap Nat Colour) => ∀ i, colours[i]? = some .white →
      ∃ m ∈ inner, m.id = i)
    (fun k lt colours _ white pass => by
      cases pass
      exact ⟨_, rfl, white_insert white fun _ => ⟨_, Array.mem_toList_iff.mp (List.getElem_mem lt), rfl⟩⟩)
    blackened whitened
  split at run
  · cases run
  rename_i sorted
  cases run
  rw [← Array.forIn_toList] at sorted
  -- each walk starts at a white inner node and keeps the sort's invariant
  have done := Except.forIn_inv
    (fun _ (s : Std.HashMap Nat Colour × Array Node) =>
      (∀ i, s.1[i]? = some .white → ∃ m ∈ inner, m.id = i) ∧ ∀ m ∈ s.2, m ∈ inner)
    (fun k lt s step ⟨white, listed⟩ pass => by
      split at pass
      · cases pass
        exact ⟨_, rfl, white, listed⟩
      · split at pass
        · cases pass
        · rename_i walked
          cases pass
          have start : Sorting inner [(inner.toList[k], 0)] (s.1.insert inner.toList[k].id .gray) s.2 :=
            ⟨white_insert white nofun, by simp, listed⟩
          have after := start.run walked
          exact ⟨_, rfl, after.white, after.order⟩)
    ⟨whitened, by simp⟩ sorted
  exact done.2

end TopologicalSort

/-! ### Positions in the view -/

section Positions

/-- Inserting each position under its key, in order, leaves every key at its last position. -/
theorem foldl_insert_getElem? (key : Nat → Nat) (count k i : Nat) :
    ((List.range count).foldl (fun m j => m.insert (key j) j) (∅ : Std.HashMap Nat Nat))[k]? = some i ↔
      i < count ∧ key i = k ∧ ∀ j, i < j → j < count → key j ≠ k := by
  induction count with
  | zero => simp
  | succ count ih =>
    rw [List.range_succ, List.foldl_append, List.foldl_cons, List.foldl_nil,
      Std.HashMap.getElem?_insert]
    by_cases last : key count = k
    · -- the last position holds the key
      rw [if_pos (beq_iff_eq.mpr last)]
      constructor
      · rintro ⟨⟩
        exact ⟨Nat.lt_succ_self _, last, fun j after before => absurd before (by omega)⟩
      · rintro ⟨lt, _, later⟩
        have same : i = count := by
          by_contra other
          exact later count (by omega) (Nat.lt_succ_self _) last
        rw [same]
    · rw [if_neg (by simpa using last), ih]
      constructor
      · rintro ⟨lt, found, later⟩
        refine ⟨by omega, found, fun j after before => ?_⟩
        rcases Nat.lt_succ_iff_lt_or_eq.mp before with earlier | rfl
        · exact later j after earlier
        · exact last
      · rintro ⟨lt, found, later⟩
        have other : i ≠ count := fun same => last (same ▸ found)
        exact ⟨by omega, found, fun j after before => later j after (by omega)⟩

theorem getD_leaf {c d : Node} {xs ys : Array Node} {p : Nat} (lt : p < xs.size) :
    (#[c] ++ xs ++ ys).getD (p + 1) d = xs[p] := by
  simp [Array.getD_eq_getD_getElem?, Array.getElem?_append_left, lt, Array.getElem?_append, Nat.add_comm p 1]

theorem getD_inner {c d : Node} {xs ys : Array Node} {q : Nat} (lt : q < ys.size) :
    (#[c] ++ xs ++ ys).getD (1 + xs.size + q) d = ys[q] := by
  have past : ¬ 1 + xs.size + q - 1 < xs.size := by omega
  simp [Array.getD_eq_getD_getElem?, Array.getElem?_append, past, show 1 + xs.size + q - 1 - xs.size = q by omega, lt]

end Positions

/-! ### Built views -/

section Built

open Simulation LogicNetwork

/-- What a successful build establishes about a view, with `collected` the nodes its walk
collected: the outputs are the pivots, the nodes are the constant, the leaves and the inner
nodes, placed by their last position; every pivot but the constant is collected, once, and so is
every fan-in of a collected node that is no input; the leaves are the collected inputs, in
order, and the inner nodes are no inputs. -/
structure Built (v : ConeView) (collected : Array Node) : Prop where
  outputs : v.outputs = v.pivots.map (Signal.make · false)
  nodes : v.nodes = #[Node.constant] ++ v.leaves ++ v.inner
  indices : v.indices =
    (List.range v.nodes.size).foldl (fun m i => m.insert (v.nodes.getD i default).id i) ∅
  pivots : ∀ p ∈ v.pivots, p.id = 0 ∨ p ∈ collected
  nonzero : ∀ n ∈ collected, n.id ≠ 0
  nodup : collected.toList.Nodup
  closed : ∀ n ∈ collected, v.net.isPi n = .ok false → ∀ fs, v.net.fanins n = .ok fs →
    ∀ f ∈ fs, f.node.id = 0 ∨ f.node ∈ collected
  classified : Classified v.net collected.toList v.leaves v.inner

/-- A successful build of a view over `net` from `pivots` gives a view over `net` from `pivots`
built as above. -/
theorem make_built {net : Network} {pivots : Array Node} {wrap : Bool} {j j' : Journal}
    {v : ConeView} (run : (make net pivots wrap).runFrom j = (.ok v, j')) :
    v.net = net ∧ v.pivots = pivots ∧ ∃ collected, Built v collected := by
  rw [make] at run
  obtain ⟨⟨visited, collected⟩, j₁, walk, run⟩ := Logged.runFrom_bind_eq_ok run
  obtain ⟨walked, started⟩ := Collecting.pivots (Logged.runFrom_orFail_eq_ok walk)
  obtain ⟨⟨leaves, inner⟩, j₂, sorting, run⟩ := Logged.runFrom_bind_eq_ok run
  have classified := classified_of_forIn sorting
  obtain ⟨⟨inner', seen⟩, j₃, pivoted, run⟩ := Logged.runFrom_bind_eq_ok run
  have gates := gates_of_forIn_pivots classified.gates pivoted
  obtain ⟨ordered, j₄, sorted, run⟩ := Logged.runFrom_bind_eq_ok run
  have listed := mem_inner_of_topologicalSort (Logged.runFrom_orFail_eq_ok sorted)
  obtain ⟨u, j₅, -, run⟩ := Logged.runFrom_bind_eq_ok run
  obtain ⟨rfl, -⟩ := Logged.runFrom_pure_eq_ok run
  refine ⟨rfl, rfl, collected, rfl, rfl, rfl, fun p pivot => ?_, walked.nonzero, walked.nodup,
    fun n member input fs fanned f fanin => ?_, ?_⟩
  · exact walked.collected_of_visited (started p pivot)
  · rcases walked.closed n member input fs fanned f fanin with seen | waiting
    · exact walked.collected_of_visited seen
    · exact absurd waiting List.not_mem_nil
  · exact ⟨classified.sublist, classified.inputs, fun n member => gates n (listed n member),
      classified.sorted⟩

variable {v : ConeView} {collected : Array Node}

theorem Built.leaves_nodup (built : Built v collected) : v.leaves.toList.Nodup :=
  built.classified.sublist.nodup built.nodup

theorem Built.nonzero_of_leaf (built : Built v collected) {n : Node} (leaf : n ∈ v.leaves) :
    n.id ≠ 0 :=
  built.nonzero n (Array.mem_toList_iff.mp (built.classified.sublist.subset (Array.mem_toList_iff.mpr leaf)))

/-- A node is a leaf of a built view exactly when it is listed as one: a leaf's own position
is the last with its id, since the leaves are distinct inputs and the inner nodes no inputs. -/
theorem Built.isLeaf_iff (built : Built v collected) {n : Node} : v.isLeaf n = true ↔ n ∈ v.leaves := by
  have size : v.nodes.size = 1 + v.leaves.size + v.inner.size := by
    rw [built.nodes, Array.size_append, Array.size_append]
    rfl
  have found : ∀ i, v.indices.get? n.id = some i ↔ i < v.nodes.size ∧
      (v.nodes.getD i default).id = n.id ∧ ∀ j, i < j → j < v.nodes.size → (v.nodes.getD j default).id ≠ n.id := by
    intro i
    rw [Std.HashMap.get?_eq_getElem?, built.indices]
    exact foldl_insert_getElem? _ _ _ _
  constructor
  · intro leaf
    unfold isLeaf at leaf
    split at leaf
    · rename_i i lookup
      obtain ⟨-, same, -⟩ := (found i).mp lookup
      simp only [Bool.and_eq_true, decide_eq_true_eq] at leaf
      obtain ⟨p, rfl⟩ : ∃ p, i = p + 1 := ⟨i - 1, by omega⟩
      have lt : p < v.leaves.size := by omega
      rw [built.nodes, getD_leaf lt] at same
      exact Node.eq_of_id_eq same ▸ Array.getElem_mem lt
    · cases leaf
  · intro leaf
    obtain ⟨p, lt, rfl⟩ := Array.mem_iff_getElem.mp leaf
    have input := built.classified.inputs _ leaf
    -- no later position holds the same id: later leaves are other leaves, inner nodes no inputs
    have last : ∀ j, p + 1 < j → j < v.nodes.size → (v.nodes.getD j default).id ≠ v.leaves[p].id := by
      intro j after before same
      rw [built.nodes] at same
      by_cases inLeaves : j ≤ v.leaves.size
      · obtain ⟨q, rfl⟩ : ∃ q, j = q + 1 := ⟨j - 1, by omega⟩
        rw [getD_leaf (by omega)] at same
        have := (@List.Nodup.getElem_inj_iff _ _ built.leaves_nodup q (by simp; omega) p
          (by simpa using lt)).mp (by simpa using Node.eq_of_id_eq same)
        omega
      · obtain ⟨q, rfl⟩ : ∃ q, j = 1 + v.leaves.size + q := ⟨j - 1 - v.leaves.size, by omega⟩
        have qlt : q < v.inner.size := by omega
        rw [getD_inner qlt] at same
        have gate := built.classified.gates _ (Array.getElem_mem qlt)
        rw [Node.eq_of_id_eq same, input] at gate
        cases gate
    have lookup := (found (p + 1)).mpr ⟨by omega, by rw [built.nodes, getD_leaf lt], last⟩
    simp only [isLeaf, lookup, Bool.and_eq_true, decide_eq_true_eq]
    omega

/-- The walk takes a node of a view for a gate when it is neither the constant nor a leaf. -/
theorem isGate_eq (v : ConeView) (n : Node) :
    LogicNetwork.isGate v n = .ok (n.id != 0 && !v.isLeaf n) := by
  have pi : LogicNetwork.isPi v n = .ok (v.isLeaf n) := rfl
  by_cases zero : n.id = 0 <;> simp [LogicNetwork.isGate, zero, pi, pure, Except.pure, bind, Except.bind]

/-- A gate of a view has the fan-ins it has in the network. -/
theorem fanins_of_isGate {v : ConeView} {n : Node} (gate : LogicNetwork.isGate v n = .ok true) :
    LogicNetwork.fanins v n = v.net.fanins n := by
  rw [isGate_eq] at gate
  simp only [Except.ok.injEq, Bool.and_eq_true, bne_iff_ne, ne_eq, Bool.not_eq_true'] at gate
  show v.fanins n = _
  simp [ConeView.fanins, gate.2]

/-- Below the outputs of a built view lie the constant and collected nodes only: the outputs are
pivots, and a gate of the view is a collected node that is no input, whose fan-ins are
collected. -/
theorem Built.collected_of_below (built : Built v collected) {m : Node}
    (below : BelowOutput v m) : m.id = 0 ∨ m ∈ collected := by
  obtain ⟨s, output, path⟩ := below
  have start : s.node.id = 0 ∨ s.node ∈ collected := by
    change s ∈ v.outputs at output
    rw [built.outputs] at output
    obtain ⟨p, pivot, rfl⟩ := Array.mem_map.mp output
    rw [Signal.node_make]
    exact built.pivots p pivot
  clear output
  generalize s.node = a at start path
  induction path with
  | refl => exact start
  | @fanin g m fs f gate fanned member _ ih =>
    apply ih
    have test := gate
    rw [isGate_eq] at test
    simp only [Except.ok.injEq, Bool.and_eq_true, bne_iff_ne, ne_eq, Bool.not_eq_true'] at test
    have kept : g ∈ collected := start.resolve_left test.1
    have input : v.net.isPi g = .ok false := by
      rcases built.classified.sorted g (Array.mem_toList_iff.mpr kept) with ⟨-, leaf⟩ | input
      · rw [built.isLeaf_iff.mpr leaf] at test
        cases test.2
      · exact input
    rw [fanins_of_isGate gate] at fanned
    exact built.closed g kept input fs fanned f member

/-- Every input of the network below an output of a built view is a leaf. -/
theorem Built.leaf_of_below (built : Built v collected) (shaped : v.net.Shaped) {m : Node}
    (below : BelowOutput v m) (input : v.net.isPi m = .ok true) : m ∈ v.leaves := by
  rcases built.collected_of_below below with zero | kept
  · have constant : v.net.isPi m = .ok false := by
      rw [Network.isPi_of_data (Network.data_eq_ok_iff.mpr (zero ▸ shaped.constant))]
      rfl
    rw [constant] at input
    cases input
  · rcases built.classified.sorted m (Array.mem_toList_iff.mpr kept) with ⟨-, leaf⟩ | gate
    · exact leaf
    · rw [gate] at input
      cases input

/-- A gate below an output of a built view over a shaped network holds a majority record: it is
not node 0, and every input below an output is a leaf. -/
theorem Built.majority_of_below (built : Built v collected) (shaped : v.net.Shaped) {g : Node}
    (below : BelowOutput v g) (gate : LogicNetwork.isGate v g = .ok true) {d : NodeData}
    (read : v.net.data g = .ok d) : d = NodeData.majority d.fanins := by
  have test := gate
  rw [isGate_eq] at test
  simp only [Except.ok.injEq, Bool.and_eq_true, bne_iff_ne, ne_eq, Bool.not_eq_true'] at test
  obtain ⟨kind, fanins⟩ := d
  cases kind with
  | constant => exact absurd (shaped.onlyConstant _ _ (Network.data_eq_ok_iff.mp read) rfl) test.1
  | input =>
    have leaf := built.leaf_of_below shaped below (Network.isPi_of_data read)
    rw [built.isLeaf_iff.mpr leaf] at test
    cases test.2
  | majority => rfl

variable {rank : Node → Nat}

/-- A built view over a shaped network, with no cycle and no dead node below its outputs and at
most `maxVars` leaves, is simulable. -/
theorem Built.simulable (built : Built v collected) (shaped : v.net.Shaped)
    (ranked : RankedBelowOutputs v rank) (live : LiveBelowOutputs v)
    (width : v.leaves.size ≤ TruthTable.maxVars) : Simulable v rank where
  walkable := {
    answers := fun n _ => by
      rw [isGate_eq]
      cases (n.id != 0 && !v.isLeaf n)
      · exact .inr rfl
      · exact .inl rfl
    fanins := fun n below gate => by
      obtain ⟨-, d, read⟩ := Network.data_of_isDead (live n below)
      have fanned : LogicNetwork.fanins v n = .ok (if d.isGate then d.fanins.toList else []) := by
        rw [fanins_of_isGate gate]
        exact Network.fanins_of_data read
      refine ⟨_, fanned, by split <;> simp [Fanins.toList], fun f member => ?_⟩
      exact ⟨below.fanin gate fanned member, ranked n below gate _ fanned f member⟩
    bound := fun n below _ => (Network.data_of_isDead (live n below)).1
    outputs := fun s output => ⟨s, output, .refl _⟩ }
  numPis_eq := rfl
  width := width
  pisNodup := built.leaves_nodup
  pisNonzero := fun _ leaf => built.nonzero_of_leaf leaf
  pisLeaves := fun n leaf => by
    rw [isGate_eq, built.isLeaf_iff.mpr leaf]
    simp
  leaves := fun n _ leaf => by
    rw [isGate_eq] at leaf
    simp only [Except.ok.injEq, Bool.and_eq_false_iff, bne_eq_false_iff_eq, Bool.not_eq_false'] at leaf
    exact leaf.imp_right built.isLeaf_iff.mp
  computes := fun g below gate fs fanned tab fits => by
    obtain ⟨-, d, read⟩ := Network.data_of_isDead (live g below)
    have stored : v.net.fanins g = .ok d.fanins.toList := by
      have fanned' := Network.fanins_of_data read
      rw [built.majority_of_below shaped below gate read] at fanned'
      exact fanned'
    rw [fanins_of_isGate gate, stored] at fanned
    cases fanned
    show ∃ t, v.net.computeGate g _ = _ ∧ _
    rw [Network.computeGate_eq_majTable stored]
    exact Fanins.majTable_fits fits

end Built

end ConeView

end MajorityGraph
