import Tollgate.Proofs.Plan.Depth

/-!
# The critical path

The levels list every step after all that it depends on, so a step is reached
by a longest chain once it is met, and what is written down about it stays true
of the steps met later.  The way back from a step goes to shorter and shorter
chains, so it ends.  Of the longest chains it takes the least one, compared from
the last step backwards.
-/

namespace Tollgate

namespace Edges

/-! ## Orders of dependency -/

/-- Steps listed once, each after all that it depends on. -/
inductive IsDependencyOrder (edges : Edges) : List Nat → Prop
  | nil : IsDependencyOrder edges []
  | snoc {order : List Nat} {node : Nat} (earlier : IsDependencyOrder edges order)
      (new : node ∉ order) (settled : edges.of node ⊆ order) :
      IsDependencyOrder edges (order ++ [node])

namespace IsDependencyOrder

variable {edges : Edges} {order : List Nat}

private theorem append (h : IsDependencyOrder edges order) {level : List Nat}
    (distinct : (order ++ level).Nodup) (settled : ∀ node ∈ level, edges.of node ⊆ order) :
    IsDependencyOrder edges (order ++ level) := by
  induction level using List.reverseRecOn with
  | nil => simpa using h
  | append_singleton level node ih =>
      rw [← List.append_assoc] at distinct ⊢
      have earlier := ih distinct.of_append_left fun other member =>
        settled other (List.mem_append_left _ member)
      refine .snoc earlier (fun member => ?_) ?_
      · exact List.disjoint_of_nodup_append distinct member (by simp)
      · exact List.subset_append_of_subset_left _ (settled node (by simp))

end IsDependencyOrder

private theorem isDependencyOrder_levelsFrom {edges : Edges} {placed : List Nat} {pending : Edges}
    (h : IsDependencyOrder edges placed) (distinct : (placed ++ nodes pending).Nodup)
    (same : ∀ edge ∈ pending, edges.of edge.1 = edge.2) :
    IsDependencyOrder edges (placed ++ (levelsFrom placed pending).flatten) := by
  fun_induction levelsFrom placed pending with
  | case1 placed pending _ _ ih =>
      have split := (nodes_perm placed pending).append_left placed
      rw [← List.append_assoc] at split
      have distinct' := split.nodup_iff.mpr distinct
      rw [List.flatten_cons, ← List.append_assoc]
      apply ih
      · apply h.append distinct'.of_append_left
        intro node member d depends
        obtain ⟨edge, now, rfl⟩ := List.mem_map.mp member
        obtain ⟨here, is_ready⟩ := List.mem_filter.mp now
        rw [same edge here] at depends
        simpa using List.all_eq_true.mp is_ready d depends
      · exact distinct'
      · exact fun edge waits => same edge (List.mem_of_mem_filter waits)
  | case2 => simpa using h

theorem isDependencyOrder_levels (steps : List Step) :
    IsDependencyOrder (ofSteps steps) (ofSteps steps).levels.flatten := by
  have distinct : (nodes (ofSteps steps)).Nodup := by
    rw [nodes_ofSteps]
    exact Ascending.nodup_ofList _
  simpa [levels] using isDependencyOrder_levelsFrom .nil distinct fun _ => of_eq_of_mem_ofSteps

/-! ## Arrivals -/

namespace Arrivals

variable {arrivals : Arrivals} {members : List Nat} {node best previous : Nat}

theorem farthest_eq_none_iff : arrivals.farthest members = none ↔ members = [] := by
  cases members <;> simp [farthest]

theorem lengthTo_farthest (h : arrivals.farthest members = some best) :
    best ∈ members ∧ ∀ other ∈ members, arrivals.lengthTo other ≤ arrivals.lengthTo best := by
  cases members with
  | nil => cases h
  | cons first rest =>
      obtain rfl := Option.some.inj h
      exact foldl_best arrivals.lengthTo _ (fun _ _ => rfl) first rest

theorem farthest_le (h : arrivals.farthest members = some best)
    (ascending : members.Pairwise (· < ·)) {other : Nat} (member : other ∈ members)
    (same : arrivals.lengthTo other = arrivals.lengthTo best) : best ≤ other := by
  cases members with
  | nil => cases h
  | cons first rest =>
      obtain rfl := Option.some.inj h
      obtain ⟨before, after, split, below, _⟩ :=
        foldl_first_best arrivals.lengthTo _ (fun _ _ => rfl) first rest
      rw [split] at ascending member
      obtain ⟨_, later, _⟩ := List.pairwise_append.mp ascending
      rcases List.mem_append.mp member with earlier | here
      · exact absurd same (below other earlier).ne
      · rcases List.mem_cons.mp here with rfl | after
        · exact le_refl _
        · exact ((List.pairwise_cons.mp later).1 other after).le

private theorem farthest_congr {others : Arrivals}
    (same : ∀ node ∈ members, arrivals.lengthTo node = others.lengthTo node) :
    arrivals.farthest members = others.farthest members := by
  cases members with
  | nil => rfl
  | cons first rest =>
      apply congrArg some
      induction rest generalizing first with
      | nil => rfl
      | cons next rest ih =>
          simp only [List.forall_mem_cons] at same ih
          obtain ⟨same_first, same_next, same_rest⟩ := same
          rw [List.foldl_cons, List.foldl_cons, same_first, same_next]
          split
          · exact ih next ⟨same_next, same_rest⟩
          · exact ih first ⟨same_first, same_rest⟩

private theorem through_congr {others : Arrivals}
    (same : ∀ node ∈ members, arrivals.lengthTo node = others.lengthTo node) :
    arrivals.through members = others.through members := by
  unfold through
  rw [farthest_congr same]
  cases far : others.farthest members with
  | none => rfl
  | some best => simp [same best (lengthTo_farthest far).1]

private theorem length_through_le {bound : Nat} (h : ∀ node, arrivals.lengthTo node ≤ bound) :
    (arrivals.through members).length ≤ bound + 1 := by
  cases far : arrivals.farthest members <;> simp [through, far, h]

end Arrivals

/-- Each listed step is reached through its dependencies, which are listed too, and no other
step is reached. -/
structure Arrivals.Solves (edges : Edges) (order : List Nat) (arrivals : Arrivals) : Prop where
  listed : ∀ node ∈ order, arrivals.lookup node = some (arrivals.through (edges.of node))
  unlisted : ∀ node, node ∉ order → arrivals.lookup node = none
  closed : ∀ node ∈ order, edges.of node ⊆ order
  bounded : ∀ node, arrivals.lengthTo node ≤ order.length

private theorem arrivals_concat (edges : Edges) (order : List Nat) (node : Nat) :
    edges.arrivals (order ++ [node]) =
      (node, (edges.arrivals order).through (edges.of node)) :: edges.arrivals order := by
  simp [arrivals]

theorem solves_arrivals {edges : Edges} {order : List Nat} (h : IsDependencyOrder edges order) :
    (edges.arrivals order).Solves edges order := by
  induction h with
  | nil => exact ⟨by simp, by simp [arrivals], by simp, by simp [arrivals, Arrivals.lengthTo]⟩
  | @snoc order node _ new settled ih =>
      rw [arrivals_concat]
      set known := edges.arrivals order with known_eq
      set later : Arrivals := (node, known.through (edges.of node)) :: known with later_eq
      have lookup_ne {other : Nat} (differ : other ≠ node) :
          later.lookup other = known.lookup other := by
        rw [later_eq, List.lookup_cons, beq_false_of_ne differ]
      have lookup_self : later.lookup node = some (known.through (edges.of node)) := by
        simp [later_eq]
      have through_eq {members : List Nat} (inside : members ⊆ order) :
          later.through members = known.through members := by
        apply Arrivals.through_congr
        intro other member
        have differ : other ≠ node := fun same => new (same ▸ inside member)
        rw [Arrivals.lengthTo, lookup_ne differ, Arrivals.lengthTo]
      constructor
      case listed =>
        intro other member
        rcases List.mem_append.mp member with earlier | here
        · have differ : other ≠ node := fun same => new (same ▸ earlier)
          rw [lookup_ne differ, through_eq (ih.closed other earlier), ih.listed other earlier]
        · rw [List.mem_singleton.mp here, lookup_self, through_eq settled]
      case unlisted =>
        intro other missing
        simp only [List.mem_append, List.mem_singleton, not_or] at missing
        rw [lookup_ne missing.2, ih.unlisted other missing.1]
      case closed =>
        intro other member
        apply List.subset_append_of_subset_left
        rcases List.mem_append.mp member with earlier | here
        · exact ih.closed other earlier
        · rwa [List.mem_singleton.mp here]
      case bounded =>
        intro other
        rw [Arrivals.lengthTo, List.length_append, List.length_singleton]
        by_cases same : other = node
        · rw [same, lookup_self]
          exact Arrivals.length_through_le ih.bounded
        · rw [lookup_ne same]
          exact (ih.bounded other).trans (Nat.le_succ _)

/-! ## The way back -/

/-- Going from `node` to the step before it, and on from there, leads along `path` to a step with
none before it.  Nothing bounds how long the path may be. -/
inductive Arrivals.Follows (arrivals : Arrivals) : Nat → List Nat → Prop
  | ends {node : Nat} (first : arrivals.previousOf node = none) : Follows arrivals node []
  | goes {node previous : Nat} {path : List Nat}
      (leads : arrivals.previousOf node = some previous)
      (later : Follows arrivals previous path) : Follows arrivals node (previous :: path)

namespace Arrivals

variable {edges : Edges} {order path : List Nat} {arrivals : Arrivals} {node previous : Nat}

theorem Follows.unique {other : List Nat} (h : arrivals.Follows node path)
    (h' : arrivals.Follows node other) : other = path := by
  induction h generalizing other with
  | ends first =>
      cases h' with
      | ends => rfl
      | goes leads => simp [first] at leads
  | goes leads _ ih =>
      cases h' with
      | ends first => simp [leads] at first
      | goes leads' later =>
          obtain rfl := Option.some.inj (leads.symm.trans leads')
          rw [ih later]

theorem Follows.back_eq {bound : Nat} (h : arrivals.Follows node path)
    (enough : path.length < bound) : arrivals.back bound node = node :: path := by
  induction h generalizing bound with
  | ends first =>
      obtain ⟨bound, rfl⟩ := Nat.exists_eq_add_of_lt enough
      simp [back, first]
  | goes leads _ ih =>
      cases bound with
      | zero => simp at enough
      | succ bound => simp [back, leads, ih (Nat.lt_of_succ_lt_succ enough)]

namespace Solves

variable (h : arrivals.Solves edges order)

include h

theorem previousOf_eq (member : node ∈ order) :
    arrivals.previousOf node = arrivals.farthest (edges.of node) := by
  simp [previousOf, h.listed node member, through]

theorem lengthTo_eq (member : node ∈ order) :
    arrivals.lengthTo node =
      ((arrivals.farthest (edges.of node)).map arrivals.lengthTo).getD 0 + 1 := by
  simp [lengthTo, h.listed node member, through]

theorem of_previousOf (leads : arrivals.previousOf node = some previous) :
    node ∈ order ∧ arrivals.farthest (edges.of node) = some previous ∧
      arrivals.lengthTo node = arrivals.lengthTo previous + 1 := by
  have member : node ∈ order := by
    by_contra missing
    simp [previousOf, h.unlisted node missing] at leads
  rw [h.previousOf_eq member] at leads
  exact ⟨member, leads, by simp [h.lengthTo_eq member, leads]⟩

private theorem lengthTo_lt (member : node ∈ order) {d : Nat} (depends : d ∈ edges.of node) :
    arrivals.lengthTo d < arrivals.lengthTo node := by
  rw [h.lengthTo_eq member]
  cases far : arrivals.farthest (edges.of node) with
  | none => simp [farthest_eq_none_iff.mp far] at depends
  | some best => exact Nat.lt_succ_of_le ((lengthTo_farthest far).2 d depends)

theorem exists_follows (node : Nat) : ∃ path, arrivals.Follows node path := by
  induction length : arrivals.lengthTo node using Nat.strongRecOn generalizing node with
  | ind _ ih =>
      cases leads : arrivals.previousOf node with
      | none => exact ⟨[], .ends leads⟩
      | some previous =>
          obtain ⟨_, _, longer⟩ := h.of_previousOf leads
          obtain ⟨path, later⟩ := ih (arrivals.lengthTo previous) (by omega) previous rfl
          exact ⟨previous :: path, .goes leads later⟩

theorem length_of_follows (follows : arrivals.Follows node path) (member : node ∈ order) :
    path.length + 1 = arrivals.lengthTo node := by
  induction follows with
  | ends first =>
      rw [h.previousOf_eq member] at first
      simp [h.lengthTo_eq member, first]
  | goes leads _ ih =>
      obtain ⟨_, far, longer⟩ := h.of_previousOf leads
      have here := h.closed _ member (lengthTo_farthest far).1
      simp [longer, ih here]

theorem isChain_of_follows (follows : arrivals.Follows node path) :
    (node :: path).IsChain fun later earlier => earlier ∈ edges.of later := by
  induction follows with
  | ends => exact .singleton _
  | goes leads _ ih =>
      obtain ⟨_, far, _⟩ := h.of_previousOf leads
      exact .cons_cons (lengthTo_farthest far).1 ih

theorem length_lt_lengthTo {chain : List Nat} (member : node ∈ order)
    (leads : (node :: chain).IsChain fun later earlier => earlier ∈ edges.of later) :
    chain.length < arrivals.lengthTo node := by
  induction chain generalizing node with
  | nil => simp [h.lengthTo_eq member]
  | cons previous chain ih =>
      obtain ⟨depends, leads⟩ := List.isChain_cons_cons.mp leads
      have shorter := ih (h.closed node member depends) leads
      have longer := h.lengthTo_lt member depends
      rw [List.length_cons]
      omega

theorem follows_le (ascending : ∀ node, (edges.of node).Pairwise (· < ·))
    (follows : arrivals.Follows node path) (member : node ∈ order) {chain : List Nat}
    (leads : (node :: chain).IsChain fun later earlier => earlier ∈ edges.of later)
    (same : chain.length = path.length) : chain = path ∨ path < chain := by
  induction follows generalizing chain with
  | ends => exact .inl (List.eq_nil_of_length_eq_zero same)
  | @goes node previous path leads' later ih =>
      cases chain with
      | nil => simp at same
      | cons other chain =>
          obtain ⟨depends, leads⟩ := List.isChain_cons_cons.mp leads
          obtain ⟨_, far, _⟩ := h.of_previousOf leads'
          obtain ⟨depends', longest⟩ := lengthTo_farthest far
          have here := h.closed _ member depends
          have length := h.length_of_follows later (h.closed _ member depends')
          have equal : arrivals.lengthTo other = arrivals.lengthTo previous := by
            have := h.length_lt_lengthTo here leads
            have := longest other depends
            simp only [List.length_cons] at same
            omega
          rw [List.cons_lt_cons_iff, List.cons.injEq]
          rcases Nat.lt_or_eq_of_le (farthest_le far (ascending _) depends equal) with lower | rfl
          · exact .inr (.inl lower)
          · rcases ih here leads (by simpa using same) with rfl | below
            · exact .inl ⟨rfl, rfl⟩
            · exact .inr (.inr ⟨rfl, below⟩)

end Solves

end Arrivals

end Edges

/-! ## The least of the longest chains -/

namespace Structure

def IsDependencyChain (steps : List Step) (chain : List Nat) : Prop :=
  chain ⊆ steps.map Step.number ∧ chain.IsChain fun earlier later => Refers steps later earlier

theorem isDependencyChain_reverse_cons {steps : List Step} {number : Nat} {before : List Nat} :
    IsDependencyChain steps (number :: before).reverse ↔ number ∈ steps.map Step.number ∧
      (number :: before).IsChain fun later earlier => earlier ∈ (Edges.ofSteps steps).of later := by
  simp only [IsDependencyChain, List.isChain_reverse, Edges.mem_of_ofSteps_iff]
  constructor
  · rintro ⟨known, leads⟩
    exact ⟨known (by simp), leads⟩
  · rintro ⟨known, leads⟩
    refine ⟨?_, leads⟩
    induction before generalizing number with
    | nil => simpa using known
    | cons previous before ih =>
        obtain ⟨refers, leads⟩ := List.isChain_cons_cons.mp leads
        rw [List.reverse_cons]
        exact List.append_subset.mpr ⟨ih refers.1 leads, by simpa using known⟩

def arrivals (steps : List Step) : Edges.Arrivals :=
  (Edges.ofSteps steps).arrivals (Edges.ofSteps steps).levels.flatten

theorem solves_arrivals (steps : List Step) :
    (arrivals steps).Solves (Edges.ofSteps steps) (Edges.ofSteps steps).levels.flatten :=
  Edges.solves_arrivals (Edges.isDependencyOrder_levels steps)

/-- A longest chain of dependencies, and of these the least from the last step backwards.  The way
back from a step ends by itself, and the chain is the one that it leads along. -/
structure IsCriticalPath (steps : List Step) (path : List Nat) : Prop where
  chain : IsDependencyChain steps path
  longest : ∀ chain, IsDependencyChain steps chain → chain.length ≤ path.length
  levels : path.length = (Edges.ofSteps steps).levels.length
  least : ∀ chain, IsDependencyChain steps chain → chain.length = path.length →
    chain = path ∨ path.reverse < chain.reverse
  ends : ∀ number, ∃ before, (arrivals steps).Follows number before
  followed : ∀ last before, (arrivals steps).farthest (Edges.ofSteps steps).nodes = some last →
    (arrivals steps).Follows last before → path = (last :: before).reverse

section Chains

variable {steps : List Step} {number last : Nat} {before chain : List Nat}

theorem isDependencyChain_of_follows
    (far : (arrivals steps).farthest (Edges.ofSteps steps).nodes = some last)
    (follows : (arrivals steps).Follows last before) :
    IsDependencyChain steps (last :: before).reverse := by
  have known := Edges.mem_nodes_ofSteps.mp (Edges.Arrivals.lengthTo_farthest far).1
  exact isDependencyChain_reverse_cons.mpr
    ⟨known, (solves_arrivals steps).isChain_of_follows follows⟩

section Acyclic

variable (acyclic : IsAcyclic steps)

include acyclic

theorem mem_levels_iff :
    number ∈ (Edges.ofSteps steps).levels.flatten ↔ number ∈ steps.map Step.number :=
  (isDepthOrder_levels acyclic).all number

theorem exists_chain_of_levels (nonempty : (Edges.ofSteps steps).levels ≠ []) :
    ∃ number before, IsDependencyChain steps (number :: before).reverse ∧
      before.length + 1 = (Edges.ofSteps steps).levels.length := by
  have depths := isDepthOrder_levels acyclic
  obtain ⟨depth, length⟩ :=
    Nat.exists_eq_add_one_of_ne_zero (mt List.length_eq_zero_iff.mp nonempty)
  have inside : depth < (Edges.ofSteps steps).levels.length := by omega
  obtain ⟨number, member⟩ :=
    List.exists_mem_of_ne_nil _ (depths.nonempty _ (List.getElem_mem inside))
  have stands : StandsAt (Edges.ofSteps steps).levels number depth :=
    ⟨_, List.getElem?_eq_getElem inside, member⟩
  obtain ⟨before, leads, same⟩ := exists_chain_of_standsAt stands
  refine ⟨number, before, isDependencyChain_reverse_cons.mpr ⟨?_, ?_⟩, by rw [same, length]⟩
  · exact (depths.all number).mp (exists_standsAt.mpr ⟨depth, stands⟩)
  · simpa only [Edges.mem_of_ofSteps_iff] using leads

theorem length_lt_levels (chain : IsDependencyChain steps (number :: before).reverse) :
    before.length < (Edges.ofSteps steps).levels.length := by
  obtain ⟨known, leads⟩ := isDependencyChain_reverse_cons.mp chain
  simp only [Edges.mem_of_ofSteps_iff] at leads
  obtain ⟨depth, stands⟩ := exists_standsAt.mp ((mem_levels_iff acyclic).mpr known)
  obtain ⟨_, found, _⟩ := id stands
  have inside := (List.getElem?_eq_some_iff.mp found).1
  exact (length_le_of_standsAt leads stands).trans_lt inside

theorem length_lt_lengthTo (h : IsDependencyChain steps (number :: chain).reverse) :
    chain.length < (arrivals steps).lengthTo number := by
  obtain ⟨known, leads⟩ := isDependencyChain_reverse_cons.mp h
  exact (solves_arrivals steps).length_lt_lengthTo ((mem_levels_iff acyclic).mpr known) leads

section Followed

variable (far : (arrivals steps).farthest (Edges.ofSteps steps).nodes = some last)
  (follows : (arrivals steps).Follows last before)

include far follows

theorem criticalPath_eq :
    (Edges.ofSteps steps).criticalPath (Edges.ofSteps steps).levels = (last :: before).reverse := by
  have solves := solves_arrivals steps
  have member := Edges.mem_nodes_ofSteps.mp (Edges.Arrivals.lengthTo_farthest far).1
  have enough : before.length < (Edges.ofSteps steps).length := by
    have length := solves.length_of_follows follows ((mem_levels_iff acyclic).mpr member)
    have bound := solves.bounded last
    obtain ⟨rank, ranked⟩ := Edges.exists_isRanked acyclic
    have placed := (Edges.flatten_levelsFrom ranked).length_eq
    rw [Edges.nodes, List.length_map] at placed
    rw [Edges.levels, placed] at bound
    omega
  unfold arrivals at far follows
  simp only [Edges.criticalPath, far, follows.back_eq enough]

theorem lengthTo_le_of_follows (known : number ∈ steps.map Step.number) :
    (arrivals steps).lengthTo number ≤ before.length + 1 := by
  obtain ⟨node, farthest⟩ := Edges.Arrivals.lengthTo_farthest far
  have placed := (mem_levels_iff acyclic).mpr (Edges.mem_nodes_ofSteps.mp node)
  rw [(solves_arrivals steps).length_of_follows follows placed]
  exact farthest number (Edges.mem_nodes_ofSteps.mpr known)

private theorem length_le_of_follows (h : IsDependencyChain steps chain) :
    chain.length ≤ before.length + 1 := by
  obtain ⟨backwards, rfl⟩ := List.reverse_surjective chain
  cases backwards with
  | nil => simp
  | cons number chain =>
      have short := length_lt_lengthTo acyclic h
      have long :=
        lengthTo_le_of_follows acyclic far follows (isDependencyChain_reverse_cons.mp h).1
      simp only [List.length_reverse, List.length_cons]
      omega

private theorem le_of_follows (h : IsDependencyChain steps (number :: chain).reverse)
    (same : chain.length = before.length) :
    number :: chain = last :: before ∨ last :: before < number :: chain := by
  have solves := solves_arrivals steps
  obtain ⟨known, leads⟩ := isDependencyChain_reverse_cons.mp h
  have short := length_lt_lengthTo acyclic h
  have long := lengthTo_le_of_follows acyclic far follows known
  have placed : last ∈ (Edges.ofSteps steps).levels.flatten := by
    rw [mem_levels_iff acyclic, ← Edges.mem_nodes_ofSteps]
    exact (Edges.Arrivals.lengthTo_farthest far).1
  have length := solves.length_of_follows follows placed
  have ascending : (Edges.ofSteps steps).nodes.Pairwise (· < ·) := by
    rw [Edges.nodes_ofSteps]
    exact Ascending.pairwise_ofList _
  have lowest : last ≤ number :=
    Edges.Arrivals.farthest_le far ascending (Edges.mem_nodes_ofSteps.mpr known) (by omega)
  rw [List.cons_lt_cons_iff, List.cons.injEq]
  rcases Nat.lt_or_eq_of_le lowest with lower | rfl
  · exact .inr (.inl lower)
  · rcases solves.follows_le (Edges.pairwise_of_ofSteps steps) follows placed leads same with
      rfl | below
    · exact .inl ⟨rfl, rfl⟩
    · exact .inr (.inr ⟨rfl, below⟩)

theorem isCriticalPath_of_follows : IsCriticalPath steps (last :: before).reverse := by
  have dependent := isDependencyChain_of_follows far follows
  have longest {chain : List Nat} (h : IsDependencyChain steps chain) :=
    length_le_of_follows acyclic far follows h
  constructor
  case chain => exact dependent
  case longest => exact fun chain h => by simpa using longest h
  case levels =>
    have some_level : (Edges.ofSteps steps).levels ≠ [] :=
      List.ne_nil_of_length_pos (Nat.zero_lt_of_lt (length_lt_levels acyclic dependent))
    obtain ⟨number, chain, leads, same⟩ := exists_chain_of_levels acyclic some_level
    apply Nat.le_antisymm
    · simpa using length_lt_levels acyclic dependent
    · simpa [← same] using longest leads
  case least =>
    intro chain h same
    obtain ⟨backwards, rfl⟩ := List.reverse_surjective chain
    cases backwards with
    | nil => simp at same
    | cons number chain =>
        rw [List.reverse_reverse, List.reverse_reverse, List.reverse_inj]
        exact le_of_follows acyclic far follows h (by simpa using same)
  case ends => exact (solves_arrivals steps).exists_follows
  case followed =>
    intro last' before' far' follows'
    obtain rfl := Option.some.inj (far.symm.trans far')
    rw [follows.unique follows']

end Followed

private theorem isCriticalPath_nil (empty : steps.map Step.number = []) :
    IsCriticalPath steps [] := by
  have no_chain {chain : List Nat} (h : IsDependencyChain steps chain) : chain = [] :=
    List.subset_nil.mp (empty ▸ h.1)
  have nothing : (Edges.ofSteps steps).nodes = [] := by
    rw [Edges.nodes_ofSteps, empty]
    rfl
  constructor
  case chain => exact ⟨List.nil_subset _, .nil⟩
  case longest => exact fun chain h => by simp [no_chain h]
  case levels =>
    by_contra some_level
    have nonempty : (Edges.ofSteps steps).levels ≠ [] := fun same => some_level (by simp [same])
    obtain ⟨number, before, h, _⟩ := exists_chain_of_levels acyclic nonempty
    simpa using no_chain h
  case least => exact fun chain h _ => .inl (no_chain h)
  case ends => exact (solves_arrivals steps).exists_follows
  case followed =>
    intro last before far
    simp [nothing, Edges.Arrivals.farthest] at far

private theorem isCriticalPath_criticalPath :
    IsCriticalPath steps ((Edges.ofSteps steps).criticalPath (Edges.ofSteps steps).levels) := by
  cases far : (arrivals steps).farthest (Edges.ofSteps steps).nodes with
  | none =>
      have nothing := Edges.Arrivals.farthest_eq_none_iff.mp far
      have empty : steps.map Step.number = [] := by
        apply List.eq_nil_iff_forall_not_mem.mpr
        intro number known
        simpa [nothing] using Edges.mem_nodes_ofSteps.mpr known
      have no_path : (Edges.ofSteps steps).criticalPath (Edges.ofSteps steps).levels = [] := by
        unfold arrivals at far
        simp only [Edges.criticalPath, far]
      rw [no_path]
      exact isCriticalPath_nil acyclic empty
  | some last =>
      obtain ⟨before, follows⟩ := (solves_arrivals steps).exists_follows last
      rw [criticalPath_eq acyclic far follows]
      exact isCriticalPath_of_follows acyclic far follows

end Acyclic

end Chains

end Structure

/-! ## Plans -/

namespace Plan

/-- A plan and an analysis take the critical path as it is, also that of steps with other faults. -/
theorem critical_path_is_least {steps : List Step} (acyclic : Structure.IsAcyclic steps) :
    Structure.IsCriticalPath steps
        ((Edges.ofSteps steps).criticalPath (Edges.ofSteps steps).levels) ∧
      (analyze steps).criticalPath =
        (Edges.ofSteps steps).criticalPath (Edges.ofSteps steps).levels ∧
      ∀ plan, build steps = .ok plan → plan.criticalPath =
        (Edges.ofSteps steps).criticalPath (Edges.ofSteps steps).levels := by
  refine ⟨Structure.isCriticalPath_criticalPath acyclic, ?_, ?_⟩
  · exact (analyze_of_acyclic ((Edges.cycles_eq_nil_iff steps).mpr acyclic)).2.2.1
  · intro plan built
    rw [(build_eq_ok_iff.mp built).2]
    rfl

def braided : List Step :=
  [(Step.make 6 "math" "add").withInput "a" (.string "$step4.step4_output"),
    (Step.make 5 "math" "add").withInput "a" (.string "$step4.step4_output + $step3.step3_output"),
    (Step.make 4 "math" "add").withInput "a" (.string "$step2.step2_output + $step1.step1_output"),
    (Step.make 3 "math" "add").withInput "a" (.string "$step2.step2_output"),
    Step.make 2 "math" "identity", Step.make 1 "math" "identity"]

theorem critical_path_is_least_braided :
    Structure.IsAcyclic braided ∧ (analyze braided).criticalPath = [2, 3, 5] ∧
      Structure.IsCriticalPath braided (analyze braided).criticalPath := by
  have acyclic : Structure.IsAcyclic braided :=
    (Edges.cycles_eq_nil_iff braided).mp (by decide +kernel)
  obtain ⟨least, same, _⟩ := critical_path_is_least acyclic
  refine ⟨acyclic, ?_, ?_⟩
  · decide +kernel
  · rw [same]
    exact least

end Plan

end Tollgate
