import Tollgate.Proofs.Plan.Cache

/-!
# Histories of the plan cache

Whatever has been planned and forgotten before, a cache answers with the plan
that would be built.  It gives out a plan that it has given out before exactly
when the definition has the same id, the same version and the same steps, and
nothing was forgotten in between.
-/

namespace Tollgate.PlanCache

inductive Call where
  | plan (definition : Definition)
  | clear

def perform (cache : PlanCache) : Call → PlanCache
  | .plan definition => (cache.planFor definition).2
  | .clear => cache.clear

def after (calls : List Call) : PlanCache := calls.foldl perform {}

def answer (calls : List Call) (definition : Definition) : Except Rejection KeptPlan :=
  ((after calls).planFor definition).1

def SamePlan (first second : Except Rejection KeptPlan) : Prop :=
  ∃ kept other, first = .ok kept ∧ second = .ok other ∧ kept.serial = other.serial

theorem after_append (calls later : List Call) :
    after (calls ++ later) = later.foldl perform (after calls) :=
  List.foldl_append

theorem after_plan (calls : List Call) (definition : Definition) (later : List Call) :
    after (calls ++ .plan definition :: later) =
      later.foldl perform ((after calls).planFor definition).2 := by
  rw [after_append]
  rfl

/-- The three ways to answer, each with the cache that it leaves. -/
inductive Answers (cache : PlanCache) (definition : Definition) :
    Except Rejection KeptPlan → PlanCache → Prop
  | kept {kept : KeptPlan} :
      cache.kept.lookup (keyOf definition) = some kept → Answers cache definition (.ok kept) cache
  | rejected {rejection : Rejection} :
      cache.kept.lookup (keyOf definition) = none →
      Plan.build definition.steps = .error rejection →
      Answers cache definition (.error rejection) cache
  | built {plan : Plan} :
      cache.kept.lookup (keyOf definition) = none → Plan.build definition.steps = .ok plan →
      Answers cache definition (.ok ⟨cache.built, plan⟩)
        ⟨(keyOf definition, ⟨cache.built, plan⟩) :: cache.kept, cache.built + 1⟩

theorem answers_planFor (cache : PlanCache) (definition : Definition) :
    Answers cache definition (cache.planFor definition).1 (cache.planFor definition).2 := by
  unfold planFor
  cases found : cache.kept.lookup (keyOf definition) with
  | some kept => exact .kept found
  | none =>
      cases built : Plan.build definition.steps with
      | error rejection => exact .rejected found built
      | ok plan => exact .built found built

/-- The serial number has been given out, and is that of no plan kept now but under keys
that satisfy `p`. -/
structure Issued (serial : Nat) (p : PlanKey → Prop) (cache : PlanCache) : Prop where
  below : serial < cache.built
  only : ∀ key kept, (key, kept) ∈ cache.kept → kept.serial = serial → p key

section Answers

variable {cache later : PlanCache} {definition : Definition} {serial : Nat} {p : PlanKey → Prop}
  {outcome : Except Rejection KeptPlan} {kept : KeptPlan}

theorem Issued.clear (issued : Issued serial p cache) (q : PlanKey → Prop) :
    Issued serial q cache.clear where
  below := issued.below
  only _ _ member := nomatch member

theorem Issued.step (issued : Issued serial p cache)
    (answers : Answers cache definition outcome later) : Issued serial p later := by
  cases answers with
  | kept => exact issued
  | rejected => exact issued
  | built =>
      refine ⟨Nat.lt_succ_of_lt issued.below, fun key kept member same => ?_⟩
      rcases List.mem_cons.mp member with new | old
      · obtain ⟨rfl, rfl⟩ := Prod.mk.inj new
        exact absurd same.symm (Nat.ne_of_lt issued.below)
      · exact issued.only key kept old same

theorem Issued.holds (issued : Issued serial p cache)
    (answers : Answers cache definition (.ok kept) later) (same : kept.serial = serial) :
    p (keyOf definition) := by
  cases answers with
  | kept found => exact issued.only _ _ (mem_of_lookup found) same
  | built => exact absurd same.symm (Nat.ne_of_lt issued.below)

def IsNumbered (cache : PlanCache) : Prop :=
  ∀ key kept, (key, kept) ∈ cache.kept → Issued kept.serial (· = key) cache

theorem IsNumbered.step (numbered : cache.IsNumbered)
    (answers : Answers cache definition outcome later) : later.IsNumbered := by
  have keep := fun key kept member => (numbered key kept member).step answers
  cases answers with
  | kept => exact keep
  | rejected => exact keep
  | built =>
      intro key kept member
      rcases List.mem_cons.mp member with new | old
      · obtain ⟨rfl, rfl⟩ := Prod.mk.inj new
        refine ⟨Nat.lt_succ_self _, fun other kept listed same => ?_⟩
        rcases List.mem_cons.mp listed with new | old
        · exact (Prod.mk.inj new).1
        · exact absurd same (Nat.ne_of_lt (numbered other kept old).below)
      · exact keep key kept old

theorem Answers.lookup (answers : Answers cache definition (.ok kept) later) :
    later.kept.lookup (keyOf definition) = some kept := by
  cases answers with
  | kept found => exact found
  | built => exact List.lookup_cons_self

theorem Answers.lookup_of_lookup {key : PlanKey} (found : cache.kept.lookup key = some kept)
    (answers : Answers cache definition outcome later) : later.kept.lookup key = some kept := by
  cases answers with
  | kept => exact found
  | rejected => exact found
  | built new =>
      have other : key ≠ keyOf definition := by
        rintro rfl
        rw [found] at new
        cases new
      rw [List.lookup_cons, beq_false_of_ne other]
      exact found

end Answers

theorem isSound_after {calls : List Call}
    (fits : ∀ definition, .plan definition ∈ calls → ∀ step ∈ definition.steps, step.FitsWord) :
    (after calls).IsSound := by
  refine List.foldlRecOn calls perform (fun _ _ member => nomatch member) ?_
  rintro cache sound (definition | _) member
  · exact (sound.planFor (fits definition member)).2
  · exact isSound_clear cache

theorem isNumbered_after (calls : List Call) : (after calls).IsNumbered := by
  refine List.foldlRecOn calls perform (fun _ _ member => nomatch member) ?_
  rintro cache numbered (definition | _) _
  · exact numbered.step (cache.answers_planFor definition)
  · exact fun _ _ member => nomatch member

theorem Issued.foldl {serial : Nat} {p : PlanKey → Prop} {cache : PlanCache}
    (issued : Issued serial p cache) (calls : List Call) :
    Issued serial p (calls.foldl perform cache) := by
  refine List.foldlRecOn calls perform issued ?_
  rintro cache issued (definition | _) _
  · exact issued.step (cache.answers_planFor definition)
  · exact issued.clear p

private theorem Issued.foldl_clear {serial : Nat} {p : PlanKey → Prop} {cache : PlanCache}
    (issued : Issued serial p cache) {calls : List Call} (forgotten : .clear ∈ calls) :
    Issued serial (fun _ => False) (calls.foldl perform cache) := by
  obtain ⟨before, later, rfl⟩ := List.append_of_mem forgotten
  rw [List.foldl_append, List.foldl_cons]
  exact ((issued.foldl before).clear _).foldl later

private theorem lookup_foldl {cache : PlanCache} {key : PlanKey} {kept : KeptPlan}
    (found : cache.kept.lookup key = some kept) {calls : List Call}
    (unforgotten : .clear ∉ calls) :
    (calls.foldl perform cache).kept.lookup key = some kept := by
  refine List.foldlRecOn (motive := fun cache => cache.kept.lookup key = some kept) calls perform
    found ?_
  rintro cache found (definition | _) member
  · exact (cache.answers_planFor definition).lookup_of_lookup found
  · exact absurd member unforgotten

private theorem planFor_of_lookup {cache : PlanCache} {definition : Definition} {kept : KeptPlan}
    (found : cache.kept.lookup (keyOf definition) = some kept) :
    (cache.planFor definition).1 = .ok kept := by
  unfold planFor
  rw [found]

theorem answer_eq_build {calls : List Call} {definition : Definition}
    (fits : ∀ planned, .plan planned ∈ calls ++ [.plan definition] →
      ∀ step ∈ planned.steps, step.FitsWord) :
    (answer calls definition).map KeptPlan.plan = Plan.build definition.steps :=
  ((isSound_after fun planned member =>
    fits planned (List.mem_append_left _ member)).planFor (fits definition (by simp))).1

private theorem answer_isOk_iff {calls : List Call} {definition : Definition}
    (fits : ∀ planned, .plan planned ∈ calls ++ [.plan definition] →
      ∀ step ∈ planned.steps, step.FitsWord) :
    (∃ kept, answer calls definition = .ok kept) ↔
      ∃ plan, Plan.build definition.steps = .ok plan := by
  rw [← answer_eq_build fits]
  cases answer calls definition <;> simp [Except.map]

theorem samePlan_iff {before between : List Call} {first second : Definition} :
    SamePlan (answer before first) (answer (before ++ .plan first :: between) second) ↔
      (∃ kept, answer before first = .ok kept) ∧ keyOf first = keyOf second ∧
        .clear ∉ between := by
  have answers := (after before).answers_planFor first
  have again := (between.foldl perform ((after before).planFor first).2).answers_planFor second
  unfold answer
  rw [after_plan]
  constructor
  · rintro ⟨kept, other, answered, given, same⟩
    rw [answered] at answers
    rw [given] at again
    have issued := (isNumbered_after before).step answers _ _ (mem_of_lookup answers.lookup)
    refine ⟨⟨kept, answered⟩, ?_, fun forgotten => ?_⟩
    · exact ((issued.foldl between).holds again same.symm).symm
    · exact (issued.foldl_clear forgotten).holds again same.symm
  · rintro ⟨⟨kept, answered⟩, same, unforgotten⟩
    rw [answered] at answers
    have held := lookup_foldl answers.lookup unforgotten
    rw [same] at held
    exact ⟨kept, kept, answered, planFor_of_lookup held, rfl⟩

/-- In any history every call is answered with what building gives; step lists that are written
alike plan alike; and two calls are answered with one and the same plan exactly if both
definitions have a plan, their ids, versions and written steps agree, and nothing was forgotten
between the calls. -/
theorem history_transparent {before between : List Call} {first second : Definition}
    (fits : ∀ definition, .plan definition ∈ before ++ .plan first :: (between ++ [.plan second]) →
      ∀ step ∈ definition.steps, step.FitsWord) :
    (answer before first).map KeptPlan.plan = Plan.build first.steps ∧
      ((keyOf first).steps = (keyOf second).steps →
        Plan.build first.steps = Plan.build second.steps) ∧
      (SamePlan (answer before first) (answer (before ++ .plan first :: between) second) ↔
        (∃ plan, Plan.build first.steps = .ok plan) ∧
          (∃ plan, Plan.build second.steps = .ok plan) ∧
          (first.id = second.id ∧ first.version = second.version ∧
            (keyOf first).steps = (keyOf second).steps) ∧
          .clear ∉ between) := by
  have fits_first : ∀ definition, .plan definition ∈ before ++ [.plan first] →
      ∀ step ∈ definition.steps, step.FitsWord := by
    intro definition member
    refine fits definition ?_
    rw [List.append_cons]
    exact List.mem_append_left _ member
  have alike (same : (keyOf first).steps = (keyOf second).steps) :
      Plan.build first.steps = Plan.build second.steps :=
    build_of_text (fits first (by simp)) (fits second (by simp)) same
  have keys : keyOf first = keyOf second ↔ first.id = second.id ∧ first.version = second.version ∧
      (keyOf first).steps = (keyOf second).steps := PlanKey.mk.injEq .. ▸ Iff.rfl
  refine ⟨answer_eq_build fits_first, alike, ?_⟩
  rw [samePlan_iff, answer_isOk_iff fits_first, keys]
  constructor
  · rintro ⟨planned, same, unforgotten⟩
    exact ⟨planned, alike same.2.2 ▸ planned, same, unforgotten⟩
  · rintro ⟨planned, _, same, unforgotten⟩
    exact ⟨planned, same, unforgotten⟩

def pair (value : String) : Definition where
  id := "pair"
  steps :=
    [Step.make 1 "math" "identity",
      (Step.make 2 "math" "identity").withInput "value" (.string value)]

private theorem fits_pair (value : String) : ∀ step ∈ (pair value).steps, step.FitsWord := by
  intro step member
  rcases List.mem_pair.mp member with rfl | rfl
  · exact (by decide : 1 < Bound.word)
  · exact (by decide : 2 < Bound.word)

theorem history_transparent_pair :
    (answer [.plan (pair "$step2.step2_output")] (pair "$step1.step1_output")).map KeptPlan.plan =
        Plan.build (pair "$step1.step1_output").steps ∧
      SamePlan (answer [] (pair "$step1.step1_output"))
        (answer ([] ++ .plan (pair "$step1.step1_output") :: [.plan (pair "1")])
          (pair "$step1.step1_output")) ∧
      ¬ SamePlan (answer [] (pair "$step1.step1_output"))
        (answer ([] ++ .plan (pair "$step1.step1_output") :: [.plan (pair "1"), .clear])
          (pair "$step1.step1_output")) := by
  have planned : ∃ plan, Plan.build (pair "$step1.step1_output").steps = .ok plan := by
    have sound : Plan.issues (pair "$step1.step1_output").steps = [] := by decide +kernel
    exact ⟨_, by rw [Plan.build, sound]⟩
  have fits (calls : List Call) (pairs : ∀ definition, .plan definition ∈ calls →
      ∃ value, definition = pair value) :
      ∀ definition, .plan definition ∈ calls → ∀ step ∈ definition.steps, step.FitsWord := by
    intro definition member
    obtain ⟨value, rfl⟩ := pairs definition member
    exact fits_pair value
  refine ⟨?_, ?_, ?_⟩
  · refine (@history_transparent [.plan (pair "$step2.step2_output")] []
      (pair "$step1.step1_output") (pair "1") (fits _ ?_)).1
    simp only [List.mem_append, List.mem_cons, List.not_mem_nil, or_false, Call.plan.injEq]
    grind
  · refine (history_transparent (fits _ ?_)).2.2.mpr ⟨planned, planned, ⟨rfl, rfl, rfl⟩, by simp⟩
    simp only [List.mem_append, List.mem_cons, List.not_mem_nil, or_false, Call.plan.injEq]
    grind
  · refine fun same => ((history_transparent (fits _ ?_)).2.2.mp same).2.2.2 (by simp)
    simp only [List.mem_append, List.mem_cons, List.not_mem_nil, or_false, Call.plan.injEq]
    grind

end Tollgate.PlanCache
