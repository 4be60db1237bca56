import MicroOS.Tasks

/-!
What `exit_task` does to the tasks: it reaches only the task itself and the threads
below it, and when it is not interrupted it reaches all of them.
-/
namespace MicroOS.Tasks
open Function (update_of_ne update_self)
universe u
section
variable {M : Type u}

/-- The task and the threads below it. -/
def Within (k : Kernel M) (t u : Nat) : Prop := u = t ∨ Below k t u

/-- The result of an exit: stopped somewhere on the way, or every task within has
    exited and the task itself comes last. -/
def ExitCorrect (release : M → Task → M) (k : Kernel M) (t : Nat) : Machine M × Bool → Prop
  | (m,true) => Torn release (Within k t) k m.kernel
  | (m,false) => ∃ last, Torn release (Within k t) k last ∧
      (∀ u, Within k t u → (last.tasks u).active = false) ∧ m.kernel = teardown release last t

/-- Where a task is gone, the threads below it are gone. -/
def Whole (k k' : Kernel M) : Prop :=
  ∀ u v, (k.tasks u).active = true → (k'.tasks u).active = false → Below k u v → (k'.tasks v).active = false

theorem torn_only {release : M → Task → M} {some_ : Nat → Prop} {k k' : Kernel M} (torn : Torn release some_ k k')
    {u : Nat} (before : (k.tasks u).active = true) (after : (k'.tasks u).active = false) : some_ u := by
  induction torn with
  | start =>
    rw [before] at after
    cases after
  | @deactivate k' v _ one _ ih =>
    by_cases same : u = v
    · rw [same]
      exact one
    · have unchanged : (deactivate k' v).tasks u = k'.tasks u := update_of_ne same ..
      rw [unchanged] at after
      exact ih after
  | @teardown k' v _ one _ _ ih =>
    by_cases same : u = v
    · rw [same]
      exact one
    · have unchanged : (teardown release k' v).tasks u = k'.tasks u := update_of_ne same ..
      rw [unchanged] at after
      exact ih after

theorem inactive_fewer {k k' : Kernel M} (fewer : Fewer k k') {u : Nat} (gone : (k.tasks u).active = false) :
    (k'.tasks u).active = false := by
  cases active : (k'.tasks u).active with
  | false => rfl
  | true =>
    rw [fewer.kept u active,gone] at active
    cases active

/-- The loop goes over the threads of a task that is not below itself. -/
theorem below_deactivate {k : Kernel M} (sane : Sane k) {t u : Nat} (below : Below k t u) : Below (deactivate k t) t u := by
  have step (o v : Nat) (above : Within k t o) (owns : Owns k o v) : Owns (deactivate k t) o v := by
    have other : v ≠ t := by
      have later : (k.tasks t).pid < (k.tasks v).pid := by
        cases above with
        | inl same =>
          rw [← same]
          exact below_later sane (.single owns)
        | inr chain => exact below_later sane (chain.tail owns)
      intro same
      rw [same] at later
      exact lt_irrefl _ later
    obtain ⟨slot,active,listed,used⟩ := owns
    have unchanged : (deactivate k t).tasks v = k.tasks v := update_of_ne other ..
    have resources : ((deactivate k t).tasks o).resources = (k.tasks o).resources := by
      by_cases same : o = t
      · rw [same]
        unfold deactivate setTask
        simp only [update_self]
      · unfold deactivate setTask
        simp only [update_of_ne same]
    refine ⟨slot,?_,?_,?_⟩
    · rw [unchanged]
      exact active
    · rw [unchanged,resources]
      exact listed
    · rw [unchanged]
      exact used
  induction below with
  | single owns => exact .single (step _ _ (.inl rfl) owns)
  | tail chain owns ih => exact ih.tail (step _ _ (.inr chain) owns)

theorem get_task_by_pid_some {k : Kernel M} {pid : Int} {t : Nat} (found : get_task_by_pid k pid = some t) :
    t < MAX_TASKS ∧ (k.tasks t).active = true ∧ (k.tasks t).pid = pid := by
  unfold get_task_by_pid at found
  have holds := List.find?_some found
  have member := List.mem_range.mp (List.mem_of_find?_eq_some found)
  simp only [Bool.and_eq_true,beq_iff_eq] at holds
  exact ⟨member,holds.1,holds.2⟩

theorem get_task_by_pid_none {k : Kernel M} {pid : Int} (none : get_task_by_pid k pid = none) {t : Nat}
    (slot : t < MAX_TASKS) (same : (k.tasks t).pid = pid) : (k.tasks t).active = false := by
  unfold get_task_by_pid at none
  have fails := List.find?_eq_none.mp none t (List.mem_range.mpr slot)
  simpa [same] using fails

/-- A pid of the list that is found belongs to a thread of the task. -/
theorem owns_found {k now : Kernel M} (fewer : Fewer k now) {t v : Nat} {r : Int} (listed : r ∈ (k.tasks t).resources)
    (used : r ≠ 0) (found : get_task_by_pid now r = some v) : Owns k t v := by
  obtain ⟨slot,active,same⟩ := get_task_by_pid_some found
  have kept := fewer.kept v active
  rw [kept] at active same
  refine ⟨slot,active,?_,?_⟩
  · rw [same]
    exact listed
  · rw [same]
    exact used

/-- One thread of the loop exits, after others did. -/
theorem whole_exit {release : M → Task → M} {k before last : Kernel M} {v : Nat}
    (fewer : Fewer k before) (whole : Whole k before)
    (torn : Torn release (Within before v) before last) (gone : ∀ u, Within before v u → (last.tasks u).active = false) :
    Whole k last := by
  intro u w was is below
  have later := torn_fewer torn
  cases alive : (before.tasks u).active with
  | false => exact inactive_fewer later (whole u w was alive below)
  | true =>
    have exited := torn_only torn alive is
    cases still : (before.tasks w).active with
    | false => exact inactive_fewer later still
    | true =>
      have chain := @below_survives _ _ _ fewer (fun u => (k.tasks u).active = true ∧ (before.tasks u).active = false)
        (fun _ was is => ⟨was,is⟩) (fun u v at_ below => whole u v at_.1 at_.2 below) _ _ (fewer.kept u alive) below still
      refine gone w (.inr ?_)
      cases exited with
      | inl same => rwa [← same]
      | inr top => exact top.trans chain

/-- The result of the loop over some of a task's threads. -/
def LoopCorrect (release : M → Task → M) (k : Kernel M) (t : Nat) (resources : List Int) (before : Kernel M) :
    Machine M × Bool → Prop
  | (m,true) => Torn release (Below k t) before m.kernel
  | (m,false) => Torn release (Below k t) before m.kernel ∧ Whole k m.kernel ∧
      ∀ v, (k.tasks v).pid ∈ resources → Owns k t v → (m.kernel.tasks v).active = false

theorem loop_append {release : M → Task → M} {k before mid : Kernel M} {t : Nat} {r : Int} {rest : List Int}
    (first : Torn release (Below k t) before mid)
    (gone : ∀ v, (k.tasks v).pid = r → Owns k t v → (mid.tasks v).active = false)
    {result : Machine M × Bool} (tail : LoopCorrect release k t rest mid result) :
    LoopCorrect release k t (r :: rest) before result := by
  obtain ⟨m,stopped⟩ := result
  cases stopped with
  | true => exact torn_trans first tail
  | false =>
    obtain ⟨torn,whole,cleared⟩ := tail
    refine ⟨torn_trans first torn,whole,?_⟩
    intro v member owns
    cases member with
    | head => exact inactive_fewer (torn_fewer torn) (gone v rfl owns)
    | tail _ later => exact cleared v later owns

theorem loop_spec {release : M → Task → M} {k : Kernel M} {t : Nat} (sane : Sane k)
    {exit : Machine M → Nat → Machine M × Bool}
    (correct : ∀ m v, Sane m.kernel → (m.kernel.tasks v).active = true → ExitCorrect release m.kernel v (exit m v))
    (resources : List Int) (listed : ∀ r ∈ resources, r ∈ (k.tasks t).resources)
    (m : Machine M) (fewer : Fewer k m.kernel) (whole : Whole k m.kernel) :
    LoopCorrect release k t resources m.kernel (resource_dealloc (sys_thread_kill exit) resources m) := by
  induction resources generalizing m with
  | nil => exact ⟨.start,whole,fun _ member => absurd member List.not_mem_nil⟩
  | cons r rest ih =>
    have listed_rest : ∀ r ∈ rest, r ∈ (k.tasks t).resources := fun r member => listed r (List.mem_cons_of_mem _ member)
    unfold resource_dealloc
    by_cases null : r = 0
    · rw [if_pos null]
      refine loop_append .start ?_ (ih listed_rest m fewer whole)
      intro v same owns
      exact absurd (same.trans null) owns.2.2.2
    · rw [if_neg null]
      unfold sys_thread_kill
      cases found : get_task_by_pid m.kernel r with
      | none =>
        refine loop_append .start ?_ (ih listed_rest m fewer whole)
        intro v same owns
        exact get_task_by_pid_none found owns.1 ((fewer.pid v).trans same)
      | some v =>
        obtain ⟨-,active,same⟩ := get_task_by_pid_some found
        have owns := owns_found fewer (listed r List.mem_cons_self) null found
        have sub : ∀ u, Within m.kernel v u → Below k t u := by
          intro u within
          cases within with
          | inl here =>
            rw [here]
            exact .single owns
          | inr chain => exact (below_fewer fewer chain).head owns
        have exited := correct m v (sane_fewer sane fewer) active
        show LoopCorrect release k t (r :: rest) m.kernel (match exit m v with
          | (m,true) => (m,true)
          | (m,false) => resource_dealloc (sys_thread_kill exit) rest m)
        cases result : exit m v with
        | mk m' stopped =>
          rw [result] at exited
          cases stopped with
          | true => exact torn_mono sub exited
          | false =>
            obtain ⟨last,torn,gone,after⟩ := exited
            have thread : (last.tasks v).parent ≠ -1 := by
              rw [(torn_fewer torn).parent,fewer.parent]
              exact sane.threads t v owns
            have whole' := whole_exit fewer whole torn gone
            have torn' : Torn release (Below k t) m.kernel m'.kernel := by
              rw [after]
              exact .teardown (torn_mono sub torn) (sub v (.inl rfl)) (gone v (.inl rfl)) thread
            have fewer' := fewer_trans fewer (torn_fewer torn')
            have unchanged (u : Nat) : (m'.kernel.tasks u).active = (last.tasks u).active := by
              rw [after]
              unfold teardown setTask
              by_cases here : u = v
              · rw [here]
                simp only [update_self]
              · simp only [update_of_ne here]
            have whole'' : Whole k m'.kernel := by
              intro u w was is below
              rw [unchanged] at is ⊢
              exact whole' u w was is below
            refine loop_append torn' ?_ (ih listed_rest m' fewer' whole'')
            intro u pid owns'
            have here : u = v := sane.unique u v owns'.2.1 owns.2.1 (pid.trans (same.symm.trans (fewer.pid v)))
            rw [here,unchanged]
            exact gone v (.inl rfl)

theorem tick_kernel {m m' : Machine M} (went : tick m = some m') : m'.kernel = m.kernel := by
  unfold tick at went
  split at went
  · cases went
    rfl
  · cases went
  · cases went
    rfl

theorem hlt_kernel (self patience : Nat) (m : Machine M) (t : Nat) : (hlt self patience m t).kernel = m.kernel := by
  unfold hlt
  split <;> rfl

/-- Induction on the fuel; the loop over the threads is `loop_spec`. -/
theorem exit_spec (release : M → Task → M) (self patience fuel : Nat) (m : Machine M) (t : Nat) (sane : Sane m.kernel)
    (active : (m.kernel.tasks t).active = true) :
    ExitCorrect release m.kernel t (exit_task release self patience fuel m t) := by
  induction fuel generalizing m t with
  | zero => exact .start
  | succ fuel ih =>
    unfold exit_task
    cases went : tick m with
    | none => exact .start
    | some m₁ =>
      have same := tick_kernel went
      rw [← same] at sane active ⊢
      have first : Torn release (Within m₁.kernel t) m₁.kernel (deactivate m₁.kernel t) :=
        .deactivate .start (.inl rfl) active
      have at_t : (deactivate m₁.kernel t).tasks t = { m₁.kernel.tasks t with active := false } := update_self ..
      have fewer := torn_fewer first
      have sub : ∀ u, Below (deactivate m₁.kernel t) t u → Within m₁.kernel t u :=
        fun u below => .inr (below_fewer fewer below)
      have whole : Whole (deactivate m₁.kernel t) (deactivate m₁.kernel t) := by
        intro u v was is _
        rw [was] at is
        cases is
      have listed : ∀ r ∈ (m₁.kernel.tasks t).resources, r ∈ ((deactivate m₁.kernel t).tasks t).resources := by
        rw [at_t]
        exact fun _ member => member
      have looped := loop_spec (sane_fewer sane fewer) ih (m₁.kernel.tasks t).resources listed
        { m₁ with kernel := deactivate m₁.kernel t } (fewer_refl _) whole
      dsimp only
      cases result : resource_dealloc (sys_thread_kill (exit_task release self patience fuel)) (m₁.kernel.tasks t).resources
          { m₁ with kernel := deactivate m₁.kernel t } with
      | mk m₂ stopped =>
        rw [result] at looped
        cases stopped with
        | true => exact torn_trans first (torn_mono sub looped)
        | false =>
          obtain ⟨torn,whole₂,cleared⟩ := looped
          have all : Torn release (Within m₁.kernel t) m₁.kernel m₂.kernel := torn_trans first (torn_mono sub torn)
          dsimp only
          cases went₂ : tick m₂ with
          | none => exact all
          | some m₃ =>
            have same₂ := tick_kernel went₂
            refine ⟨m₂.kernel,all,?_,?_⟩
            · intro u within
              cases within with
              | inl here =>
                rw [here]
                exact inactive_fewer (torn_fewer torn) (by rw [at_t])
              | inr below =>
                have chain := below_deactivate sane below
                obtain ⟨v,owns,rest⟩ := Relation.TransGen.head'_iff.mp chain
                have listed : ((deactivate m₁.kernel t).tasks v).pid ∈ (m₁.kernel.tasks t).resources := by
                  have member := owns.2.2.1
                  rw [at_t] at member
                  exact member
                have top := cleared v listed owns
                cases rest.cases_head with
                | inl here => rwa [← here]
                | inr more =>
                  obtain ⟨w,step,more⟩ := more
                  exact whole₂ v u owns.2.1 top (Relation.TransGen.head' step more)
            · rw [← same₂]
              exact hlt_kernel ..

def activeCount (k : Kernel M) : Nat := ((Finset.range MAX_TASKS).filter (fun t => (k.tasks t).active = true)).card

/-- The processor is not taken away within `n` steps. -/
def Lasts (m : Machine M) (n : Nat) : Prop := ∀ left, m.ticks = some left → n ≤ left

theorem activeCount_fewer {k k' : Kernel M} (fewer : Fewer k k') : activeCount k' ≤ activeCount k := by
  apply Finset.card_le_card
  intro t member
  rw [Finset.mem_filter] at member ⊢
  refine ⟨member.1,?_⟩
  rw [← fewer.kept t member.2]
  exact member.2

theorem activeCount_deactivate {k : Kernel M} {t : Nat} (slot : t < MAX_TASKS) (active : (k.tasks t).active = true) :
    activeCount (deactivate k t) < activeCount k := by
  apply Finset.card_lt_card
  rw [Finset.ssubset_iff_of_subset]
  · refine ⟨t,Finset.mem_filter.mpr ⟨Finset.mem_range.mpr slot,active⟩,?_⟩
    intro member
    have still := (Finset.mem_filter.mp member).2
    unfold deactivate setTask at still
    simp only [update_self] at still
    cases still
  · intro u member
    rw [Finset.mem_filter] at member ⊢
    refine ⟨member.1,?_⟩
    rw [← (fewer_deactivate k t).kept u member.2]
    exact member.2

theorem activeCount_max (k : Kernel M) : activeCount k ≤ MAX_TASKS :=
  (Finset.card_filter_le _ _).trans (Finset.card_range MAX_TASKS).le

theorem tick_lasts {m : Machine M} {n : Nat} (lasts : Lasts m (n+1)) :
    ∃ m', tick m = some m' ∧ m'.kernel = m.kernel ∧ Lasts m' n := by
  unfold tick
  cases ticks : m.ticks with
  | none =>
    refine ⟨m,rfl,rfl,?_⟩
    intro left is
    rw [ticks] at is
    cases is
  | some left =>
    have enough := lasts left ticks
    cases left with
    | zero => omega
    | succ left =>
      refine ⟨{ m with ticks := some left },rfl,rfl,?_⟩
      intro now is
      cases is
      omega

theorem lasts_mono {m : Machine M} {n n' : Nat} (lasts : Lasts m n) (le : n' ≤ n) : Lasts m n' :=
  fun left is => le.trans (lasts left is)

/-- An exit gets through when two steps are left for each active task and `outer` for
    the exits that wait for it. The patience matters only where the calling task is among
    those that exit. -/
def Finishes (self patience n : Nat) (exit : Machine M → Nat → Machine M × Bool) : Prop :=
  ∀ m t outer, Sane m.kernel → t < MAX_TASKS → (m.kernel.tasks t).active = true → activeCount m.kernel ≤ n →
    Lasts m (2 * activeCount m.kernel + outer) → (Below m.kernel t self → 2 * activeCount m.kernel + outer ≤ patience) →
    ∃ m', exit m t = (m',false) ∧ Fewer m.kernel m'.kernel ∧
      ((t = self → 2 * activeCount m.kernel + outer ≤ patience) → Lasts m' (2 * activeCount m'.kernel + outer))

theorem loop_finishes {self patience n outer : Nat} {exit : Machine M → Nat → Machine M × Bool}
    (finishes : Finishes self patience n exit) {k : Kernel M} {t : Nat} (sane : Sane k)
    (resources : List Int) (listed : ∀ r ∈ resources, r ∈ (k.tasks t).resources)
    (m : Machine M) (fewer : Fewer k m.kernel) (few : activeCount m.kernel ≤ n)
    (lasts : Lasts m (2 * activeCount m.kernel + outer))
    (patient : Below k t self → 2 * activeCount m.kernel + outer ≤ patience) :
    ∃ m', resource_dealloc (sys_thread_kill exit) resources m = (m',false) ∧ Fewer m.kernel m'.kernel ∧
      Lasts m' (2 * activeCount m'.kernel + outer) := by
  induction resources generalizing m with
  | nil => exact ⟨m,rfl,fewer_refl _,lasts⟩
  | cons r rest ih =>
    have listed_rest : ∀ r ∈ rest, r ∈ (k.tasks t).resources := fun r member => listed r (List.mem_cons_of_mem _ member)
    unfold resource_dealloc
    by_cases null : r = 0
    · rw [if_pos null]
      exact ih listed_rest m fewer few lasts patient
    · rw [if_neg null]
      unfold sys_thread_kill
      cases found : get_task_by_pid m.kernel r with
      | none => exact ih listed_rest m fewer few lasts patient
      | some v =>
        obtain ⟨slot,active,-⟩ := get_task_by_pid_some found
        have owns := owns_found fewer (listed r List.mem_cons_self) null found
        have deeper : Below m.kernel v self → 2 * activeCount m.kernel + outer ≤ patience :=
          fun below => patient ((below_fewer fewer below).head owns)
        obtain ⟨m₁,exited,fewer₁,lasts₁⟩ := finishes m v outer (sane_fewer sane fewer) slot active few lasts deeper
        have count := activeCount_fewer fewer₁
        have lasts₁ := lasts₁ (fun here => patient (by rw [← here]; exact .single owns))
        obtain ⟨m₂,looped,fewer₂,lasts₂⟩ := ih listed_rest m₁ (fewer_trans fewer fewer₁) (count.trans few) lasts₁
          (fun below => by have := patient below; omega)
        refine ⟨m₂,?_,fewer_trans fewer₁ fewer₂,lasts₂⟩
        show (match exit m v with
          | (m,true) => (m,true)
          | (m,false) => resource_dealloc (sys_thread_kill exit) rest m) = (m₂,false)
        rw [exited]
        exact looped

theorem exit_lasts (release : M → Task → M) (self patience fuel : Nat) :
    Finishes self patience fuel (exit_task release self patience fuel) := by
  induction fuel with
  | zero =>
    intro m t outer sane slot active few
    have one := activeCount_deactivate slot active
    omega
  | succ fuel ih =>
    intro m t outer sane slot active few lasts patient
    have less := activeCount_deactivate slot active
    obtain ⟨m₁,went₁,same₁,lasts₁⟩ := @tick_lasts _ m (2 * activeCount m.kernel + outer - 1)
      (lasts_mono lasts (by omega))
    rw [← same₁] at sane active few lasts patient less ⊢
    rw [← same₁] at lasts₁
    have fewer₁ := fewer_deactivate m₁.kernel t
    have listed : ∀ r ∈ (m₁.kernel.tasks t).resources, r ∈ ((deactivate m₁.kernel t).tasks t).resources := by
      unfold deactivate setTask
      simp only [update_self]
      exact fun _ member => member
    obtain ⟨m₂,looped,fewer₂,lasts₂⟩ := @loop_finishes _ _ _ _ (outer + 1) _ ih _ t (sane_fewer sane fewer₁)
      (m₁.kernel.tasks t).resources listed { m₁ with kernel := deactivate m₁.kernel t } (fewer_refl _)
      (by dsimp only; omega) (lasts_mono lasts₁ (by dsimp only; omega))
      (fun below => by have := patient (below_fewer fewer₁ below); dsimp only; omega)
    obtain ⟨m₃,went₃,same₃,lasts₃⟩ := @tick_lasts _ m₂ (2 * activeCount m₂.kernel + outer) lasts₂
    have gone : (m₃.kernel.tasks t).active = false := by
      rw [same₃]
      refine inactive_fewer fewer₂ ?_
      unfold deactivate setTask
      simp only [update_self]
    have fewer : Fewer m₁.kernel (teardown release m₃.kernel t) := by
      refine fewer_trans fewer₁ (fewer_trans fewer₂ ?_)
      rw [← same₃]
      exact fewer_teardown release gone
    have count := activeCount_fewer (fewer_teardown release gone)
    have down := activeCount_fewer fewer
    refine ⟨hlt self patience { m₃ with kernel := teardown release m₃.kernel t } t,?_,?_,?_⟩
    · unfold exit_task
      rw [went₁]
      dsimp only
      rw [looped]
      dsimp only
      rw [went₃]
    · rw [hlt_kernel]
      exact fewer
    · intro enough
      rw [hlt_kernel]
      unfold hlt
      split
      · next here =>
        have enough := enough here
        intro left is
        cases is
        dsimp only
        omega
      · rw [← same₃] at lasts₃
        show Lasts m₃ _
        exact lasts_mono lasts₃ (by dsimp only; omega)

/-- An exit is not stopped when the calling task is not below the exiting one, or with
    patience for `MAX_TASKS` nested exits. -/
theorem exit_finishes (release : M → Task → M) {k : Kernel M} (sane : Sane k) {t : Nat} (slot : t < MAX_TASKS)
    (active : (k.tasks t).active = true) {self patience : Nat} (patient : Below k t self → 2 * MAX_TASKS ≤ patience) :
    ∃ last, Torn release (Within k t) k last ∧ (∀ u, Within k t u → (last.tasks u).active = false) ∧
      exits release k self t patience = teardown release last t := by
  have count := activeCount_max k
  obtain ⟨m,exited,-,-⟩ := exit_lasts release self patience (MAX_TASKS + 1) ⟨k,none⟩ t 0 sane slot active
    (by dsimp only; omega) (fun _ is => by cases is) (fun below => by have := patient below; dsimp only; omega)
  have correct := exit_spec release self patience (MAX_TASKS + 1) ⟨k,none⟩ t sane active
  unfold exits
  rw [exited] at correct ⊢
  exact correct

/-- Any exit: the threads within go, and the task itself last if it comes to that. -/
theorem exits_spec (release : M → Task → M) {k : Kernel M} (sane : Sane k) {t : Nat} (active : (k.tasks t).active = true)
    (self patience : Nat) :
    Torn release (Within k t) k (exits release k self t patience) ∨
      ∃ last, Torn release (Within k t) k last ∧ (∀ u, Within k t u → (last.tasks u).active = false) ∧
        exits release k self t patience = teardown release last t := by
  have correct := exit_spec release self patience (MAX_TASKS + 1) ⟨k,none⟩ t sane active
  unfold exits
  cases result : exit_task release self patience (MAX_TASKS + 1) ⟨k,none⟩ t with
  | mk m stopped =>
    rw [result] at correct
    cases stopped with
    | true => exact .inl correct
    | false => exact .inr correct

end
end MicroOS.Tasks
