import MajorityGraph.Network.Substitute

/-! Runs of network work: `NetM.Returns` names a successful run, with one lemma per primitive. -/

namespace MajorityGraph

namespace NetM

variable {α β : Type}

/-- Run from `net`, the computation returns `a` and leaves `net'`, for some journal. -/
def Returns (x : NetM α) (net : Network) (a : α) (net' : Network) : Prop :=
  ∃ j j', (x.run net).run.run j = (.ok (a, net'), j')

/-- A pure computation returns its value and leaves the network. -/
@[simp] theorem returns_pure {a b : α} {net net' : Network}
    : Returns (pure a) net b net' ↔ b = a ∧ net' = net := by
  constructor
  · rintro ⟨j, j', run⟩
    simp only [StateT.run_pure, ExceptT.run_pure] at run
    cases run
    exact ⟨rfl, rfl⟩
  · rintro ⟨rfl, rfl⟩
    exact ⟨default, default, rfl⟩

/-- A run of a sequence is a run of its first part followed by a run of the rest from the
network that the first part leaves. -/
theorem Returns.bind {x : NetM α} {f : α → NetM β} {net net'' : Network} {b : β}
    (run : Returns (x >>= f) net b net'')
    : ∃ a net', Returns x net a net' ∧ Returns (f a) net' b net'' := by
  obtain ⟨j, j', run⟩ := run
  simp only [StateT.run_bind, ExceptT.run_bind] at run
  rcases first : (x.run net).run.run j with ⟨result, j₁⟩
  rw [first] at run
  cases result with
  | error e => cases run
  | ok p => exact ⟨p.1, p.2, ⟨j, j₁, first⟩, ⟨j₁, j', run⟩⟩

/-- A run of a mapped computation is a run of the computation, with its value mapped. -/
theorem Returns.map {x : NetM α} {f : α → β} {net net' : Network} {b : β}
    (run : Returns (f <$> x) net b net') : ∃ a, Returns x net a net' ∧ b = f a := by
  rw [map_eq_pure_bind] at run
  obtain ⟨a, net₁, first, rest⟩ := run.bind
  obtain ⟨rfl, rfl⟩ := returns_pure.mp rest
  exact ⟨a, first, rfl⟩

/-- Reading the network returns it. -/
@[simp] theorem returns_get {net a net' : Network}
    : Returns (get : NetM Network) net a net' ↔ a = net ∧ net' = net := by
  constructor
  · rintro ⟨j, j', run⟩
    cases run
    exact ⟨rfl, rfl⟩
  · rintro ⟨rfl, rfl⟩
    exact ⟨default, default, rfl⟩

/-- Writing the network replaces it. -/
@[simp] theorem returns_set {net n net' : Network} {u : PUnit}
    : Returns (set n : NetM PUnit) net u net' ↔ net' = n := by
  constructor
  · rintro ⟨j, j', run⟩
    cases run
    rfl
  · rintro rfl
    exact ⟨default, default, rfl⟩

/-- A step that may fail returns exactly its value, and leaves the network. -/
@[simp] theorem returns_lift {x : Except Fault α} {net net' : Network} {a : α}
    : Returns (Network.lift x) net a net' ↔ x = .ok a ∧ net' = net := by
  cases x with
  | error e =>
      simp only [reduceCtorEq, false_and, iff_false]
      rintro ⟨j, j', run⟩
      cases run
  | ok v =>
      simp only [Except.ok.injEq]
      constructor
      · rintro ⟨j, j', run⟩
        cases run
        exact ⟨rfl, rfl⟩
      · rintro ⟨rfl, rfl⟩
        exact ⟨default, default, rfl⟩

/-- A fault returns nothing. -/
theorem not_returns_throw {f : Fault} {net net' : Network} {a : α}
    : ¬ Returns (Network.lift (.error f) : NetM α) net a net' := by
  simp

/-- Writing a log record leaves the network. -/
@[simp] theorem returns_log {l : Level} {msg : String} {net net' : Network} {u : Unit}
    : Returns (Network.log l msg) net u net' ↔ net' = net := by
  constructor
  · rintro ⟨j, j', run⟩
    cases run
    rfl
  · rintro rfl
    exact ⟨default, default, rfl⟩

/-- A changing step returns what the step gives on the network. -/
@[simp] theorem returns_change {f : Network → Except Fault (α × Network)} {net net' : Network}
    {a : α}
    : Returns (Network.change f) net a net' ↔ f net = .ok (a, net') := by
  constructor
  · intro run
    obtain ⟨_, _, taken, rest⟩ := run.bind
    obtain ⟨⟨v, s⟩, s₁, lifted, rest⟩ := rest.bind
    obtain ⟨u, s₂, stored, back⟩ := rest.bind
    obtain ⟨rfl, rfl⟩ := returns_pure.mp back
    obtain ⟨j, j', taken⟩ := taken
    simp only [StateT.run_modifyGet] at taken
    cases taken
    obtain ⟨fnet, rfl⟩ := returns_lift.mp lifted
    rw [returns_set.mp stored]
    exact fnet
  · intro step
    refine ⟨default, default, ?_⟩
    simp [Network.change, Network.lift, orFail, step, StateT.run_bind]
    rfl

/-- An updating step leaves what the step gives. -/
@[simp] theorem returns_update {f : Network → Except Fault Network} {net net' : Network}
    {u : Unit}
    : Returns (Network.update f) net u net' ↔ f net = .ok net' := by
  unfold Network.update
  rw [returns_change]
  cases f net <;> simp [bind, Except.bind, pure, Except.pure]

/-- A query returns its answer on the network and leaves the network. -/
@[simp] theorem returns_query {f : Network → Except Fault α} {net net' : Network} {a : α}
    : Returns (Network.query f) net a net' ↔ f net = .ok a ∧ net' = net := by
  constructor
  · intro run
    obtain ⟨s, s₁, read, rest⟩ := run.bind
    obtain ⟨rfl, rfl⟩ := returns_get.mp read
    exact returns_lift.mp rest
  · rintro ⟨answer, rfl⟩
    refine ⟨default, default, ?_⟩
    simp [Network.query, Network.lift, orFail, answer, StateT.run_bind]
    rfl

/-- A property of the network and of the loop state that every pass of the body keeps holds
after a loop over a list, whether the loop runs to the end or stops early. -/
theorem Returns.forIn_list {γ : Type} {l : List γ} {body : γ → β → NetM (ForInStep β)} {init b : β}
    {net net' : Network} (inv : Network → β → Prop)
    (step : ∀ a ∈ l, ∀ c net₁ s net₂, inv net₁ c → Returns (body a c) net₁ s net₂ →
      inv net₂ s.value)
    (start : inv net init) (run : Returns (forIn l init body) net b net') : inv net' b := by
  induction l generalizing init net with
  | nil =>
      obtain ⟨rfl, rfl⟩ := returns_pure.mp run
      exact start
  | cons a rest ih =>
      rw [List.forIn_cons] at run
      obtain ⟨s, net₁, first, next⟩ := run.bind
      have kept := step a List.mem_cons_self init net s net₁ start first
      cases s with
      | done c =>
          obtain ⟨rfl, rfl⟩ := returns_pure.mp next
          exact kept
      | yield c =>
          exact ih (fun a' member => step a' (List.mem_cons_of_mem _ member)) kept next

/-- A loop over a list whose every pass goes on keeps a property indexed by the number of
elements done. -/
theorem Returns.forIn_list_index {γ : Type} {body : γ → β → NetM (ForInStep β)}
    : ∀ {l : List γ} (inv : Nat → Network → β → Prop) {init b : β} {net net' : Network},
      (∀ i (lt : i < l.length) c net₁ s net₂, inv i net₁ c → Returns (body l[i] c) net₁ s net₂ →
        s = .yield s.value ∧ inv (i + 1) net₂ s.value) →
      inv 0 net init → Returns (forIn l init body) net b net' → inv l.length net' b
  | [], _, _, _, _, _, _, start, run => by
      obtain ⟨rfl, rfl⟩ := returns_pure.mp run
      exact start
  | a :: rest, inv, init, b, net, net', step, start, run => by
      rw [List.forIn_cons] at run
      obtain ⟨s, net₁, first, next⟩ := run.bind
      obtain ⟨yields, kept⟩ := step 0 (by simp) init net s net₁ start first
      rw [yields] at next
      exact Returns.forIn_list_index (fun i => inv (i + 1))
        (fun i lt => step (i + 1) (by simp; omega)) kept next

/-- A loop over the indices `s, …, s + n - 1` whose every pass goes on to the next index keeps a
property indexed by the position. -/
theorem Returns.forIn_range' {body : Nat → β → NetM (ForInStep β)} (inv : Nat → Network → β → Prop)
    : ∀ (s n : Nat) {init b : β} {net net' : Network},
      (∀ i, s ≤ i → i < s + n → ∀ c net₁ r net₂, inv i net₁ c → Returns (body i c) net₁ r net₂ →
        r = .yield r.value ∧ inv (i + 1) net₂ r.value) →
      inv s net init → Returns (forIn (List.range' s n) init body) net b net' → inv (s + n) net' b
  | s, 0, init, b, net, net', _, start, run => by
      obtain ⟨rfl, rfl⟩ := returns_pure.mp run
      exact start
  | s, n + 1, init, b, net, net', step, start, run => by
      rw [List.range'_succ, List.forIn_cons] at run
      obtain ⟨r, net₁, first, next⟩ := run.bind
      obtain ⟨yields, kept⟩ := step s (Nat.le_refl s) (by omega) init net r net₁ start first
      rw [yields] at next
      have rest := Returns.forIn_range' inv (s + 1) n
        (fun i low high => step i (by omega) (by omega)) kept next
      have shifted : s + 1 + n = s + (n + 1) := by omega
      rwa [shifted] at rest

/-- A loop over the indices below `n` whose every pass goes on keeps a property indexed by the
position. -/
theorem Returns.forIn_range {body : Nat → β → NetM (ForInStep β)} (inv : Nat → Network → β → Prop)
    {n : Nat} {init b : β} {net net' : Network}
    (step : ∀ i < n, ∀ c net₁ r net₂, inv i net₁ c → Returns (body i c) net₁ r net₂ →
      r = .yield r.value ∧ inv (i + 1) net₂ r.value)
    (start : inv 0 net init) (run : Returns (forIn (List.range n) init body) net b net')
    : inv n net' b := by
  rw [List.range_eq_range'] at run
  have := Returns.forIn_range' inv 0 n (fun i _ high => step i (by omega)) start run
  rwa [Nat.zero_add] at this

/-- Run from `net`, the computation returns `a` and leaves `net'` whatever journal it starts
with. -/
def Always (x : NetM α) (net : Network) (a : α) (net' : Network) : Prop :=
  ∀ j, ∃ j', (x.run net).run.run j = (.ok (a, net'), j')

theorem Always.returns {x : NetM α} {net net' : Network} {a : α} (always : Always x net a net')
    : Returns x net a net' :=
  ⟨default, always default⟩

/-- Runs that succeed from every journal compose. -/
theorem Always.bind {x : NetM α} {f : α → NetM β} {net net₁ net₂ : Network} {a : α} {b : β}
    (first : Always x net a net₁) (rest : Always (f a) net₁ b net₂)
    : Always (x >>= f) net b net₂ := by
  intro j
  obtain ⟨j₁, run₁⟩ := first j
  obtain ⟨j₂, run₂⟩ := rest j₁
  refine ⟨j₂, ?_⟩
  simp only [StateT.run_bind, ExceptT.run_bind]
  rw [run₁]
  exact run₂

/-- A pure computation returns its value from every journal. -/
theorem always_pure (a : α) (net : Network) : Always (pure a) net a net :=
  fun j => ⟨j, rfl⟩

/-- A step that succeeds returns its value from every journal, and leaves the network. -/
theorem always_lift {x : Except Fault α} {a : α} (ok : x = .ok a) (net : Network)
    : Always (Network.lift x) net a net := by
  subst ok
  exact always_pure a net

/-- A mapped computation returns the mapped value. -/
theorem Always.map {x : NetM α} {f : α → β} {net net' : Network} {a : α}
    (always : Always x net a net') : Always (f <$> x) net (f a) net' := by
  rw [map_eq_pure_bind]
  exact always.bind (always_pure _ _)

/-- Steps that all succeed, lifted and mapped over a list, return their values from every
journal and leave the network. -/
theorem always_mapM_lift {γ : Type} {l : List γ} {f : γ → Except Fault α} {g : γ → α}
    (all : ∀ x ∈ l, f x = .ok (g x)) (net : Network)
    : Always (l.mapM fun x => Network.lift (f x)) net (l.map g) net := by
  induction l with
  | nil => exact always_pure [] net
  | cons x rest ih =>
    rw [List.mapM_cons, List.map_cons]
    exact (always_lift (all x List.mem_cons_self) net).bind
      ((ih fun y member => all y (List.mem_cons_of_mem x member)).bind (always_pure _ net))

/-- A computation that returns from every journal has one outcome. -/
theorem Always.unique {x : NetM α} {net net₁ net₂ : Network} {a b : α} (first : Always x net a net₁)
    (second : Always x net b net₂) : a = b ∧ net₁ = net₂ := by
  obtain ⟨j₁, run₁⟩ := first default
  obtain ⟨j₂, run₂⟩ := second default
  rw [run₁] at run₂
  cases run₂
  exact ⟨rfl, rfl⟩

/-- A query that succeeds returns its answer from every journal, and leaves the network. -/
theorem always_query {f : Network → Except Fault α} {net : Network} {a : α} (answer : f net = .ok a) :
    Always (Network.query f) net a net := by
  intro j
  refine ⟨j, ?_⟩
  simp [Network.query, Network.lift, orFail, answer, StateT.run_bind]
  rfl

/-- An update that succeeds leaves what it gives, from every journal. -/
theorem always_update {f : Network → Except Fault Network} {net net' : Network}
    (updated : f net = .ok net') : Always (Network.update f) net () net' := by
  intro j
  refine ⟨j, ?_⟩
  simp [Network.update, Network.change, Network.lift, orFail, updated, StateT.run_bind]
  rfl

/-- Writing a log record succeeds from every journal and leaves the network. -/
theorem always_log (l : Level) (msg : String) (net : Network) :
    Always (Network.log l msg) net () net := by
  intro j
  exact ⟨_, rfl⟩

/-- A loop over a list whose every pass goes on from every journal, keeping a property of the
network and the loop state indexed by the position, returns from every journal. -/
theorem always_forIn {γ : Type} {l : List γ} {body : γ → β → NetM (ForInStep β)} (inv : Nat → Network → β → Prop)
    (step : ∀ i (lt : i < l.length) net b, inv i net b →
      ∃ b' net', Always (body l[i] b) net (.yield b') net' ∧ inv (i + 1) net' b') :
    ∀ {init : β} {net : Network}, inv 0 net init →
      ∃ b net', Always (forIn l init body) net b net' ∧ inv l.length net' b := by
  induction l generalizing inv with
  | nil => exact fun {init net} start => ⟨init, net, always_pure init net, start⟩
  | cons a rest ih =>
    intro init net start
    obtain ⟨b, net₁, first, kept⟩ := step 0 (by simp) net init start
    obtain ⟨b', net', loop, holds⟩ := ih (fun i => inv (i + 1))
      (fun i lt net c => step (i + 1) (by simp; omega) net c) kept
    refine ⟨b', net', ?_, holds⟩
    rw [List.forIn_cons]
    exact first.bind loop

/-- Reading the network returns it from every journal. -/
theorem always_get (net : Network) : Always (get : NetM Network) net net net :=
  fun j => ⟨j, rfl⟩

/-- A step that returns from every journal, followed by a computation that reaches a property
from every journal, reaches it. -/
theorem Always.bind_exists {x : NetM α} {f : α → NetM β} {net net₁ : Network} {a : α}
    {Q : β → Network → Prop} (first : Always x net a net₁)
    (rest : ∃ b net', Always (f a) net₁ b net' ∧ Q b net') :
    ∃ b net', Always (x >>= f) net b net' ∧ Q b net' := by
  obtain ⟨b, net', run, holds⟩ := rest
  exact ⟨b, net', first.bind run, holds⟩

/-- A loop as in `always_forIn`, followed by a computation that reaches a property from every
journal from whatever the invariant leaves at the end, reaches it. -/
theorem always_forIn_bind {γ : Type} {l : List γ} {body : γ → β → NetM (ForInStep β)} {k : β → NetM α}
    {Q : α → Network → Prop} {init : β} {net : Network} (inv : Nat → Network → β → Prop)
    (step : ∀ i (lt : i < l.length) net b, inv i net b →
      ∃ b' net', Always (body l[i] b) net (.yield b') net' ∧ inv (i + 1) net' b')
    (start : inv 0 net init)
    (rest : ∀ b net', inv l.length net' b → ∃ a net'', Always (k b) net' a net'' ∧ Q a net'') :
    ∃ a net'', Always (forIn l init body >>= k) net a net'' ∧ Q a net'' := by
  obtain ⟨b, net', loop, ended⟩ := always_forIn inv step start
  exact Always.bind_exists loop (rest b net' ended)

end NetM

end MajorityGraph
