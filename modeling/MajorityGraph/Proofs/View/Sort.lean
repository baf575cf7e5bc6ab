import MajorityGraph.ConeView
import MajorityGraph.Proofs.Window.Divisors

/-!
The depth-first topological sort of a view's inner nodes lists each once, after its inner fan-ins
(`topologicalSort_spec`).
-/

namespace MajorityGraph

namespace ConeView

open Network

variable {net : Network} {wrap : Bool} {n : Node} {i : Nat}

/-! ### One step of the sort -/

section Steps

variable (net wrap) (fuel : Nat) (stack : List (Node × Nat)) (colour : Std.HashMap Nat Colour)
  (order : Array Node)

/-- A white fan-in is painted gray and gets a frame above its gate's. -/
theorem sortFrom_white {fs : List Signal} (fanned : net.fanins n = .ok fs) {s : Signal}
    (slot : fs[i]? = some s) (white : colour[s.node.id]? = some .white) :
    sortFrom net wrap (fuel + 1) ((n, i) :: stack) colour order =
      sortFrom net wrap fuel ((s.node, 0) :: (n, i + 1) :: stack) (colour.insert s.node.id .gray)
        order := by
  simp [sortFrom, fanned, slot, Std.HashMap.get?_eq_getElem?, white]

/-- A black fan-in is passed over. -/
theorem sortFrom_black {fs : List Signal} (fanned : net.fanins n = .ok fs) {s : Signal}
    (slot : fs[i]? = some s) (black : colour[s.node.id]? = some .black) :
    sortFrom net wrap (fuel + 1) ((n, i) :: stack) colour order =
      sortFrom net wrap fuel ((n, i + 1) :: stack) colour order := by
  simp [sortFrom, fanned, slot, Std.HashMap.get?_eq_getElem?, black]

/-- A node whose fan-ins have all been looked at is painted black and listed. -/
theorem sortFrom_finish {fs : List Signal} (fanned : net.fanins n = .ok fs) (past : fs[i]? = none) :
    sortFrom net wrap (fuel + 1) ((n, i) :: stack) colour order =
      sortFrom net wrap fuel stack (colour.insert n.id .black) (order.push n) := by
  simp [sortFrom, fanned, past]

end Steps

/-! ### Runs and states of the sort -/

variable (net wrap) in
/-- From `colour` and `order` the sort works through the frames `stack` in `steps` steps and
arrives at `colour'` and `order'`, whatever frames lie below. -/
def SortRuns (stack : List (Node × Nat)) (colour : Std.HashMap Nat Colour) (order : Array Node)
    (colour' : Std.HashMap Nat Colour) (order' : Array Node) (steps : Nat) : Prop :=
  ∀ fuel rest, steps ≤ fuel →
    sortFrom net wrap fuel (stack ++ rest) colour order =
      sortFrom net wrap (fuel - steps) rest colour' order'

section Runs

variable {s₁ s₂ : List (Node × Nat)} {c₁ c₂ c₃ : Std.HashMap Nat Colour} {o₁ o₂ o₃ : Array Node}
  {k₁ k₂ : Nat}

theorem SortRuns.nil : SortRuns net wrap [] c₁ o₁ c₁ o₁ 0 := fun _ _ _ => rfl

theorem SortRuns.append (first : SortRuns net wrap s₁ c₁ o₁ c₂ o₂ k₁)
    (second : SortRuns net wrap s₂ c₂ o₂ c₃ o₃ k₂) :
    SortRuns net wrap (s₁ ++ s₂) c₁ o₁ c₃ o₃ (k₁ + k₂) := by
  intro fuel rest enough
  rw [List.append_assoc, first fuel (s₂ ++ rest) (by omega), second (fuel - k₁) rest (by omega),
    Nat.sub_sub]

/-- One step that turns the frames `s₁` into `s₂`, followed by a run from `s₂`. -/
theorem SortRuns.step (next : SortRuns net wrap s₂ c₂ o₂ c₃ o₃ k₂)
    (step : ∀ fuel rest, sortFrom net wrap (fuel + 1) (s₁ ++ rest) c₁ o₁ =
      sortFrom net wrap fuel (s₂ ++ rest) c₂ o₂) :
    SortRuns net wrap s₁ c₁ o₁ c₃ o₃ (k₂ + 1) := by
  intro fuel rest enough
  obtain ⟨fuel, rfl⟩ : ∃ m, fuel = m + 1 := ⟨fuel - 1, by omega⟩
  rw [step, next fuel rest (by omega)]
  congr 1
  omega

end Runs

theorem getElem?_insert_of_ne {colour : Std.HashMap Nat Colour} {c m : Node} (apart : c ≠ m)
    (v : Colour) : (colour.insert c.id v)[m.id]? = colour[m.id]? := by
  rw [Std.HashMap.getElem?_insert, if_neg]
  simpa using fun same => apart (Node.eq_of_id_eq same)

variable (net) in
/-- A state of the sort for the leaves `leaves` and the inner nodes `inner`, with the nodes of
the frames `path`: every node of the view is white, an inner node and not listed, or gray, on
the path and not listed, or black and finished: the constant, a leaf or listed. The path holds
distinct gray inner nodes, and the listed nodes are distinct inner nodes, each after those of its
fan-ins that are not the constant or a leaf. -/
structure SortState (leaves inner : Array Node) (path : List Node) (colour : Std.HashMap Nat Colour)
    (order : Array Node) : Prop where
  colours : ∀ m, m = Node.constant ∨ m ∈ leaves ∨ m ∈ inner →
    colour[m.id]? = some .white ∧ m ∈ inner ∧ m ∉ order ∨
      colour[m.id]? = some .gray ∧ m ∈ path ∧ m ∉ order ∨
      colour[m.id]? = some .black ∧ ((m = Node.constant ∨ m ∈ leaves) ∨ m ∈ order)
  nodup : path.Nodup
  path : ∀ m ∈ path, m ∈ inner ∧ colour[m.id]? = some .gray
  listed : ∀ m ∈ order, m ∈ inner
  distinct : order.toList.Nodup
  ordered : net.Ordered (fun m => m = Node.constant ∨ m ∈ leaves) order

section State

variable {leaves inner : Array Node} {path : List Node} {colour : Std.HashMap Nat Colour}
  {order : Array Node}

/-- A node on the path is not listed. -/
theorem SortState.not_listed (state : SortState net leaves inner path colour order) {m : Node}
    (onPath : m ∈ path) : m ∉ order := by
  obtain ⟨member, gray⟩ := state.path m onPath
  rcases state.colours m (.inr (.inr member)) with ⟨white, -⟩ | ⟨-, -, unlisted⟩ | ⟨black, -⟩
  · rw [gray] at white
    cases white
  · exact unlisted
  · rw [gray] at black
    cases black

/-- A white node of the view is not listed. -/
theorem SortState.unlisted_of_white (state : SortState net leaves inner path colour order) {m : Node}
    (member : m ∈ inner) (white : colour[m.id]? = some .white) : m ∉ order := by
  rcases state.colours m (.inr (.inr member)) with ⟨-, -, unlisted⟩ | ⟨gray, -⟩ | ⟨black, -⟩
  · exact unlisted
  · rw [white] at gray
    cases gray
  · rw [white] at black
    cases black

/-- With no frame on the path, an inner node that is not white is finished. -/
theorem SortState.finished_of_not_white (state : SortState net leaves inner [] colour order)
    {m : Node} (member : m ∈ inner) (white : ¬ colour[m.id]? = some .white) :
    (m = Node.constant ∨ m ∈ leaves) ∨ m ∈ order := by
  rcases state.colours m (.inr (.inr member)) with ⟨white', -⟩ | ⟨-, onPath, -⟩ | ⟨-, done⟩
  · exact absurd white' white
  · exact nomatch onPath
  · exact done

/-- The listed nodes are distinct inner nodes, so there are no more of them than inner nodes. -/
theorem SortState.size_le (state : SortState net leaves inner path colour order) :
    order.size ≤ inner.size := by
  simpa using state.distinct.length_le_of_subset fun m member =>
    Array.mem_toList_iff.mpr (state.listed m (Array.mem_toList_iff.mp member))

/-- A white inner node not listed is painted gray and joins the path. -/
theorem SortState.paint (state : SortState net leaves inner path colour order) {c : Node}
    (white : colour[c.id]? = some .white) (member : c ∈ inner) (unlisted : c ∉ order) :
    SortState net leaves inner (c :: path) (colour.insert c.id .gray) order where
  colours m inView := by
    by_cases same : c = m
    · subst same
      exact .inr (.inl ⟨Std.HashMap.getElem?_insert_self, List.mem_cons_self, unlisted⟩)
    · rw [getElem?_insert_of_ne same]
      rcases state.colours m inView with white' | ⟨gray, onPath, unlisted'⟩ | black
      · exact .inl white'
      · exact .inr (.inl ⟨gray, List.mem_cons_of_mem _ onPath, unlisted'⟩)
      · exact .inr (.inr black)
  nodup := by
    refine List.nodup_cons.mpr ⟨fun onPath => ?_, state.nodup⟩
    have gray := (state.path c onPath).2
    rw [white] at gray
    cases gray
  path m onPath := by
    rcases List.mem_cons.mp onPath with rfl | older
    · exact ⟨member, Std.HashMap.getElem?_insert_self⟩
    · obtain ⟨inner', gray⟩ := state.path m older
      refine ⟨inner', ?_⟩
      rw [Std.HashMap.getElem?_insert]
      split
      · rfl
      · exact gray
  listed := state.listed
  distinct := state.distinct
  ordered := state.ordered

/-- The node of the top frame, with its fan-ins finished, is painted black and listed. -/
theorem SortState.finish (state : SortState net leaves inner (n :: path) colour order) {f : Fanins}
    (gate : net.gateFanins n = some f)
    (fanins : ∀ s ∈ f.toList, (s.node = Node.constant ∨ s.node ∈ leaves) ∨ s.node ∈ order) :
    SortState net leaves inner path (colour.insert n.id .black) (order.push n) where
  colours m inView := by
    by_cases same : n = m
    · subst same
      exact .inr (.inr ⟨Std.HashMap.getElem?_insert_self, .inr Array.mem_push_self⟩)
    · have unpushed : m ∉ order → m ∉ order.push n := fun unlisted pushed =>
        (Array.mem_push.mp pushed).elim unlisted fun back => same back.symm
      rw [getElem?_insert_of_ne same]
      rcases state.colours m inView with ⟨white, member, unlisted⟩ | ⟨gray, onPath, unlisted⟩ |
          ⟨black, finished⟩
      · exact .inl ⟨white, member, unpushed unlisted⟩
      · refine .inr (.inl ⟨gray, ?_, unpushed unlisted⟩)
        exact (List.mem_cons.mp onPath).resolve_left (Ne.symm same)
      · exact .inr (.inr ⟨black, finished.imp_right (Array.mem_push_of_mem _)⟩)
  nodup := (List.nodup_cons.mp state.nodup).2
  path m onPath := by
    have apart : n ≠ m := fun same => (List.nodup_cons.mp state.nodup).1 (same ▸ onPath)
    rw [getElem?_insert_of_ne apart]
    exact state.path m (List.mem_cons_of_mem _ onPath)
  listed m member := by
    rcases Array.mem_push.mp member with old | rfl
    · exact state.listed m old
    · exact (state.path m List.mem_cons_self).1
  distinct := by
    rw [Array.toList_push, ← List.concat_eq_append]
    exact state.distinct.concat fun listed =>
      state.not_listed List.mem_cons_self (Array.mem_toList_iff.mp listed)
  ordered := state.ordered.push gate fanins

end State

/-! ### Frames -/

variable (net wrap) in
/-- The outcome of working through the frame of `n` from fan-in position `i` on, with `path`
below it: the sort comes back to the frames below within four steps per node it lists, less the
positions already looked at, in a state as above with `n` listed. -/
structure SortVisited (leaves inner : Array Node) (n : Node) (i : Nat) (path : List Node)
    (colour : Std.HashMap Nat Colour) (order : Array Node) (colour' : Std.HashMap Nat Colour)
    (order' : Array Node) : Prop where
  runs : ∃ steps, SortRuns net wrap [(n, i)] colour order colour' order' steps ∧
    steps + i ≤ 4 * (order'.size - order.size)
  state : SortState net leaves inner path colour' order'
  prefix_ : order.toList <+: order'.toList
  done : n ∈ order'

section Frames

variable {leaves inner : Array Node} {path : List Node} {colour colour' : Std.HashMap Nat Colour}
  {order order' : Array Node} {f : Fanins}

/-- Past the last fan-in, the frame's node is listed in one step. -/
theorem sortVisited_finish (state : SortState net leaves inner (n :: path) colour order)
    (gate : net.gateFanins n = some f)
    (fanins : ∀ s ∈ f.toList, (s.node = Node.constant ∨ s.node ∈ leaves) ∨ s.node ∈ order) :
    SortVisited net wrap leaves inner n 3 path colour order (colour.insert n.id .black)
      (order.push n) := by
  exact ⟨⟨1, SortRuns.nil.step fun fuel rest =>
    sortFrom_finish net wrap fuel rest colour order (fanins_of_gateFanins gate) rfl, by simp⟩,
    state.finish gate fanins, by simp, Array.mem_push_self⟩

/-- A black fan-in costs one step before the next position. -/
theorem sortVisited_pass (gate : net.gateFanins n = some f) {s : Signal}
    (slot : f.toList[i]? = some s) (black : colour[s.node.id]? = some .black)
    (next : SortVisited net wrap leaves inner n (i + 1) path colour order colour' order') :
    SortVisited net wrap leaves inner n i path colour order colour' order' := by
  obtain ⟨k, runs, steps⟩ := next.runs
  refine ⟨⟨k + 1, runs.step fun fuel rest => ?_, by omega⟩, next.state, next.prefix_, next.done⟩
  exact sortFrom_black net wrap fuel rest colour order (fanins_of_gateFanins gate) slot black

/-- A white fan-in costs one step, then its own frame, before the next position. -/
theorem sortVisited_descend {colour₁ : Std.HashMap Nat Colour} {order₁ : Array Node}
    (gate : net.gateFanins n = some f) {s : Signal} (slot : f.toList[i]? = some s)
    (white : colour[s.node.id]? = some .white)
    (child : SortVisited net wrap leaves inner s.node 0 (n :: path) (colour.insert s.node.id .gray)
      order colour₁ order₁)
    (next : SortVisited net wrap leaves inner n (i + 1) path colour₁ order₁ colour' order') :
    SortVisited net wrap leaves inner n i path colour order colour' order' := by
  obtain ⟨k₁, runs₁, steps₁⟩ := child.runs
  obtain ⟨k₂, runs₂, steps₂⟩ := next.runs
  have grown₁ := child.prefix_.length_le
  have grown₂ := next.prefix_.length_le
  simp only [Array.length_toList] at grown₁ grown₂
  refine ⟨⟨k₁ + k₂ + 1, (runs₁.append runs₂).step fun fuel rest => ?_, by omega⟩, next.state,
    child.prefix_.trans next.prefix_, next.done⟩
  exact sortFrom_white net wrap fuel rest colour order (fanins_of_gateFanins gate) slot white

variable {rank : Node → Nat}

/-- The frame of an inner gate on top of the path, from position `i` on, with the fan-ins before
`i` finished: each later fan-in is white and gets its frame, or is finished. The path lies above
the gate in rank and the fan-ins below it, so none of them is gray. The induction is on the
number `d` of positions left. -/
theorem sortVisited_frame (ranked : net.Ranked rank)
    (closed : ∀ g ∈ inner, ∀ f, net.gateFanins g = some f →
      ∀ s ∈ f.toList, s.node = Node.constant ∨ s.node ∈ leaves ∨ s.node ∈ inner)
    (gate : net.gateFanins n = some f) (ancestors : ∀ m ∈ path, rank n < rank m)
    (single : ∀ c ∈ inner, rank c < rank n → ∀ colour order,
      SortState net leaves inner (c :: n :: path) colour order →
      ∃ colour' order', SortVisited net wrap leaves inner c 0 (n :: path) colour order colour' order') :
    ∀ d i, i + d = 3 → ∀ colour order, SortState net leaves inner (n :: path) colour order →
      (∀ s ∈ f.toList.take i, (s.node = Node.constant ∨ s.node ∈ leaves) ∨ s.node ∈ order) →
      ∃ colour' order', SortVisited net wrap leaves inner n i path colour order colour' order'
  | 0, i, three, colour, order, state, finished => by
    obtain rfl : i = 3 := by omega
    have all : f.toList.take 3 = f.toList := List.take_of_length_le (by simp [Fanins.toList])
    exact ⟨_, _, sortVisited_finish state gate fun s slot => finished s (all ▸ slot)⟩
  | d + 1, i, sum, colour, order, state, finished => by
    have within : i < f.toList.length := by
      simp only [Fanins.toList, List.length_cons, List.length_nil]
      omega
    obtain ⟨s, slot⟩ : ∃ s, f.toList[i]? = some s := ⟨_, List.getElem?_eq_getElem within⟩
    have member : s ∈ f.toList := List.mem_of_getElem? slot
    have lower := ranked n f gate s member
    -- the positions before `i` stay finished, and position `i` is finished when it is listed
    have later : ∀ {order' : Array Node}, order.toList <+: order'.toList →
        (s.node = Node.constant ∨ s.node ∈ leaves) ∨ s.node ∈ order' →
        ∀ s' ∈ f.toList.take (i + 1), (s'.node = Node.constant ∨ s'.node ∈ leaves) ∨ s'.node ∈ order' := by
      intro order' grown now s' slot'
      rw [List.take_add_one, slot, Option.toList_some] at slot'
      rcases List.mem_append.mp slot' with old | new
      · exact (finished s' old).imp_right (WindowLimits.mem_of_prefix grown)
      · rw [List.mem_singleton.mp new]
        exact now
    have inView : s.node = Node.constant ∨ s.node ∈ leaves ∨ s.node ∈ inner :=
      closed n (state.path n List.mem_cons_self).1 f gate s member
    rcases state.colours s.node inView with ⟨white, child, unlisted⟩ | ⟨gray, onPath, -⟩ |
        ⟨black, done⟩
    · obtain ⟨colour₁, order₁, visit⟩ := single s.node child lower _ order
        (state.paint white child unlisted)
      obtain ⟨colour', order', next⟩ := sortVisited_frame ranked closed gate ancestors single d
        (i + 1) (by omega) colour₁ order₁ visit.state (later visit.prefix_ (.inr visit.done))
      exact ⟨colour', order', sortVisited_descend gate slot white visit next⟩
    · -- a gray fan-in would lie on the path, which ranks at or above the gate
      rcases List.mem_cons.mp onPath with same | above
      · rw [same] at lower
        exact absurd lower (Nat.lt_irrefl _)
      · exact absurd (ancestors _ above) (Nat.lt_asymm lower)
    · obtain ⟨colour', order', next⟩ := sortVisited_frame ranked closed gate ancestors single d
        (i + 1) (by omega) colour order state (later (List.prefix_refl _) done)
      exact ⟨colour', order', sortVisited_pass gate slot black next⟩

/-- Every inner node on top of a path that ranks above it gets through its frame; the induction
is on a bound of its rank. -/
theorem sortVisited_single (ranked : net.Ranked rank)
    (gates : ∀ g ∈ inner, ∃ f, net.gateFanins g = some f)
    (closed : ∀ g ∈ inner, ∀ f, net.gateFanins g = some f →
      ∀ s ∈ f.toList, s.node = Node.constant ∨ s.node ∈ leaves ∨ s.node ∈ inner) :
    ∀ k c, rank c < k → c ∈ inner → ∀ path, (∀ m ∈ path, rank c < rank m) → ∀ colour order,
      SortState net leaves inner (c :: path) colour order →
      ∃ colour' order', SortVisited net wrap leaves inner c 0 path colour order colour' order'
  | 0, _, low, _, _, _, _, _, _ => absurd low (Nat.not_lt_zero _)
  | k + 1, c, low, member, path, ancestors, colour, order, state => by
    obtain ⟨f, gate⟩ := gates c member
    refine sortVisited_frame ranked closed gate ancestors (fun c' child lower colour' order' state' => ?_)
      3 0 rfl colour order state (by simp)
    refine sortVisited_single ranked gates closed k c' (by omega) child (c :: path) (fun m onPath => ?_)
      colour' order' state'
    rcases List.mem_cons.mp onPath with rfl | older
    · exact lower
    · exact lower.trans (ancestors m older)

/-- The frame of a node alone, from its first fan-in on, with fuel for four steps per inner node
and one more, returns. -/
theorem SortVisited.returns
    (visit : SortVisited net wrap leaves inner n 0 path colour order colour' order') {fuel : Nat}
    (enough : 4 * inner.size + 1 ≤ fuel) :
    sortFrom net wrap fuel [(n, 0)] colour order = .ok (colour', order') := by
  obtain ⟨k, runs, steps⟩ := visit.runs
  -- the frame lists no more nodes than there are inner nodes, so the fuel covers it
  have bounded := visit.state.size_le
  rw [← List.append_nil [(n, 0)], runs fuel [] (by omega), show fuel - k = fuel - k - 1 + 1 by omega]
  rfl

end Frames

/-! ### The walks from the inner nodes -/

section Starts

variable {leaves inner : Array Node} {rank : Node → Nat}

/-- Painting the nodes of a list one colour: a node of the list has it, and every other node
keeps its colour. -/
theorem getElem?_foldl_insert (v : Colour) (l : List Node) (colour : Std.HashMap Nat Colour)
    (m : Node) :
    (l.foldl (fun c n => c.insert n.id v) colour)[m.id]? = if m ∈ l then some v else colour[m.id]? := by
  induction l generalizing colour with
  | nil => simp
  | cons n rest ih =>
    rw [List.foldl_cons, ih]
    by_cases later : m ∈ rest
    · simp [later]
    · by_cases same : n = m
      · subst same
        simp
      · simp [later, getElem?_insert_of_ne same, Ne.symm same]

/-- The sort's walks from the nodes `starts` in turn, each with fuel for four steps per inner
node and one more, from a state with an empty path: a white start is walked from and any other is
passed over, and every start ends finished. -/
theorem sortFrom_starts (ranked : net.Ranked rank)
    (gates : ∀ g ∈ inner, ∃ f, net.gateFanins g = some f)
    (closed : ∀ g ∈ inner, ∀ f, net.gateFanins g = some f →
      ∀ s ∈ f.toList, s.node = Node.constant ∨ s.node ∈ leaves ∨ s.node ∈ inner)
    {fuel : Nat} (enough : 4 * inner.size + 1 ≤ fuel) :
    ∀ starts : List Node, (∀ s ∈ starts, s ∈ inner) → ∀ colour order,
      SortState net leaves inner [] colour order →
      ∃ colour' order', forIn starts (colour, order) (fun start (x : Std.HashMap Nat Colour × Array Node) =>
          if x.1.get? start.id != some Colour.white then pure (ForInStep.yield (x.1, x.2))
          else do
            let y ← sortFrom net wrap fuel [(start, 0)] (x.1.insert start.id .gray) x.2
            pure (ForInStep.yield (y.1, y.2))) = Except.ok (colour', order') ∧
        SortState net leaves inner [] colour' order' ∧ order.toList <+: order'.toList ∧
        ∀ s ∈ starts, (s = Node.constant ∨ s ∈ leaves) ∨ s ∈ order'
  | [], _, colour, order, state => ⟨colour, order, rfl, state, List.prefix_refl _, fun _ none => nomatch none⟩
  | start :: starts, members, colour, order, state => by
    have member := members start List.mem_cons_self
    have others : ∀ s ∈ starts, s ∈ inner := fun s later => members s (List.mem_cons_of_mem _ later)
    rw [List.forIn_cons]
    by_cases white : colour[start.id]? = some .white
    · obtain ⟨colour₁, order₁, visit⟩ : ∃ colour₁ order₁, SortVisited net wrap leaves inner start 0 []
          (colour.insert start.id .gray) order colour₁ order₁ :=
        sortVisited_single ranked gates closed _ start (Nat.lt_succ_self _) member []
          (fun _ none => nomatch none) _ order
          (state.paint white member (state.unlisted_of_white member white))
      obtain ⟨colour', order', rest, state', grown, finished⟩ := sortFrom_starts ranked gates closed
        enough starts others colour₁ order₁ visit.state
      refine ⟨colour', order', ?_, state', visit.prefix_.trans grown, fun s listed => ?_⟩
      · simpa [Std.HashMap.get?_eq_getElem?, white, visit.returns enough] using rest
      · rcases List.mem_cons.mp listed with rfl | later
        · exact .inr (WindowLimits.mem_of_prefix grown visit.done)
        · exact finished s later
    · obtain ⟨colour', order', rest, state', grown, finished⟩ := sortFrom_starts ranked gates closed
        enough starts others colour order state
      refine ⟨colour', order', ?_, state', grown, fun s listed => ?_⟩
      · simpa [Std.HashMap.get?_eq_getElem?, white] using rest
      · rcases List.mem_cons.mp listed with rfl | later
        · exact (state.finished_of_not_white member white).imp_right (WindowLimits.mem_of_prefix grown)
        · exact finished s later

/-- The topological sort of inner nodes that are live gates, apart from the leaves, with each
fan-in the constant, a leaf or an inner node: on a coherent network it lists every inner node
once, each after those of its fan-ins that are not the constant or a leaf. -/
theorem topologicalSort_spec (coherent : net.Coherent) (wrap : Bool)
    (gates : ∀ g ∈ inner, ∃ f, net.gateFanins g = some f) (apart : ∀ g ∈ inner, g ∉ leaves)
    (closed : ∀ g ∈ inner, ∀ f, net.gateFanins g = some f →
      ∀ s ∈ f.toList, s.node = Node.constant ∨ s.node ∈ leaves ∨ s.node ∈ inner) :
    ∃ ordered, topologicalSort net wrap leaves inner = .ok ordered ∧
      (∀ m, m ∈ ordered ↔ m ∈ inner) ∧ ordered.toList.Nodup ∧
      net.Ordered (fun m => m = Node.constant ∨ m ∈ leaves) ordered := by
  obtain ⟨rank, ranked⟩ := coherent.acyclic
  -- the constant and the leaves start black, and the inner nodes white
  have start : SortState net leaves inner []
      (inner.foldl (fun c n => c.insert n.id .white)
        (leaves.foldl (fun c n => c.insert n.id .black) ((∅ : Std.HashMap Nat Colour).insert 0 .black)))
      #[] := by
    refine ⟨fun m inView => ?_, List.nodup_nil, fun _ none => (nomatch none),
      fun _ none => by simp at none, List.nodup_nil, fun k lt => by simp at lt⟩
    rw [← Array.foldl_toList, getElem?_foldl_insert]
    by_cases member : m ∈ inner.toList
    · rw [if_pos member]
      exact .inl ⟨rfl, Array.mem_toList_iff.mp member, by simp⟩
    · rw [if_neg member, ← Array.foldl_toList, getElem?_foldl_insert]
      refine .inr (.inr ⟨?_, .inl ?_⟩)
      · by_cases leaf : m ∈ leaves.toList
        · rw [if_pos leaf]
        · rcases inView with rfl | leaf' | inner'
          · rw [if_neg leaf]
            exact Std.HashMap.getElem?_insert_self
          · exact absurd (Array.mem_toList_iff.mpr leaf') leaf
          · exact absurd (Array.mem_toList_iff.mpr inner') member
      · exact inView.imp_right fun other => other.resolve_right fun inner' =>
          member (Array.mem_toList_iff.mpr inner')
  simp only [topologicalSort, Array.forIn_pure_yield_eq_foldl, pure_bind]
  rw [← Array.forIn_toList]
  obtain ⟨colour', order', run, state, -, finished⟩ := sortFrom_starts ranked gates closed
    (show 4 * inner.size + 1 ≤ 5 * inner.size + 5 by omega) inner.toList
    (fun s member => Array.mem_toList_iff.mp member) _ _ start
  refine ⟨order', by rw [run]; rfl, fun m => ⟨state.listed m, fun member => ?_⟩, state.distinct,
    state.ordered⟩
  rcases finished m (Array.mem_toList_iff.mpr member) with (rfl | leaf) | done
  · obtain ⟨f, gate⟩ := gates _ member
    rw [coherent.gateFanins_constant] at gate
    cases gate
  · exact absurd leaf (apart m member)
  · exact done

end Starts

end ConeView

end MajorityGraph
