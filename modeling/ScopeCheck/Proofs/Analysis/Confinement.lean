import ScopeCheck.Proofs.Analysis.Environment
import ScopeCheck.Proofs.Analysis.FunctionShape

namespace ScopeCheck

/-- Every name that is used on the way means the same in both lists of scopes. -/
def AgreeOn (events : List Event) (outer other : List Bindings) : Prop :=
  ∀ id node name, .enter id node ∈ events → node.label.uses? = some name →
    (outer.findSome? fun bindings => bindings name) = other.findSome? fun bindings => bindings name

theorem AgreeOn.of_subset {events later : List Event} {outer other : List Bindings}
    (h : AgreeOn later outer other) (hsubset : events ⊆ later) : AgreeOn events outer other :=
  fun id node name hmem => h id node name (hsubset hmem)

namespace Environment

/-- The same scopes and the same note, with more scopes around. -/
def within (env : Environment) (outer : List Bindings) : Environment :=
  ⟨env.scopes ++ outer, env.blockEntry⟩

variable {env later : Environment} {id : NodeId} {node : Node} {outer : List Bindings}

theorem within_append (env : Environment) (inner outer : List Bindings) :
    (env.within inner).within outer = env.within (inner ++ outer) := by
  rw [within, within, within, List.append_assoc]

theorem declare_within (h : env.scopes ≠ []) (definition : Definition) :
    (env.within outer).declare definition = (env.declare definition).within outer := by
  obtain ⟨bindings, rest, hscopes⟩ := List.exists_cons_of_ne_nil h
  simp only [within, declare, hscopes, List.cons_append, List.modifyHead_cons]

theorem enter_within (h : env.scopes ≠ []) (id : NodeId) (node : Node) :
    (env.within outer).enter id node = (env.enter id node).within outer := by
  rw [enter, enter]
  cases node.label.declares? with
  | some decl =>
    simp only [declare_within h]
    split <;> rfl
  | none =>
    simp only
    split
    · rw [enterBlock, enterBlock]
      simp only [within]
      cases env.blockEntry <;> rfl
    · rfl

theorem leave_within (h : env.scopes ≠ []) (node : Node) :
    (env.within outer).leave node = (env.leave node).within outer := by
  obtain ⟨scopes, entry⟩ := env
  obtain ⟨bindings, rest, rfl⟩ := List.exists_cons_of_ne_nil h
  rw [leave, leave]
  cases node.label.opening? with
  | none => rfl
  | some opening => cases opening <;> cases entry <;> rfl

theorem step_within (h : env.scopes ≠ []) (event : Event) :
    (env.within outer).step event = (env.step event).within outer := by
  cases event with
  | enter id node => exact enter_within h id node
  | leave id node => exact leave_within h node

/-- The events start in `env` and end in `later`, whatever scopes are around, and find nothing out
about these but what the names that they use mean there. -/
structure Confined (env later : Environment) (events : List Event) : Prop where
  run : ∀ outer, (env.within outer).run events = later.within outer
  readings : ∀ outer other, AgreeOn events outer other →
    (env.within outer).readings events = (env.within other).readings events

namespace Confined

variable {last : Environment} {events rest : List Event}

theorem nil (env : Environment) : Confined env env [] := ⟨fun _ => rfl, fun _ _ _ => rfl⟩

theorem append (h : Confined env later events) (h' : Confined later last rest) :
    Confined env last (events ++ rest) where
  run outer := by rw [run_append, h.run, h'.run]
  readings outer other hagree := by
    rw [readings_append, readings_append, h.run, h.run,
      h.readings outer other (hagree.of_subset (List.subset_append_left ..)),
      h'.readings outer other (hagree.of_subset (List.subset_append_right ..))]

/-- Some of the scopes that may be around are. -/
theorem within (h : Confined env later events) (inner : List Bindings) :
    Confined (env.within inner) (later.within inner) events where
  run outer := by rw [within_append, h.run, within_append]
  readings outer other hagree := by
    rw [within_append, within_append]
    refine h.readings _ _ fun id node name hmem huses => ?_
    rw [List.findSome?_append, List.findSome?_append, hagree id node name hmem huses]

theorem single (h : env.scopes ≠ []) (event : Event) : Confined env (env.step event) [event] where
  run outer := step_within h event
  readings outer other hagree := by
    cases event with
    | leave id node => rfl
    | enter id node =>
      obtain ⟨bindings, rest, hscopes⟩ := List.exists_cons_of_ne_nil h
      simp only [Environment.readings, reading, Environment.within]
      cases node.label.declares? with
      | some decl => simp only [findLocal, hscopes, List.cons_append, List.head?_cons]
      | none =>
        cases huses : node.label.uses? with
        | none => rfl
        | some name =>
          simp only [find, List.findSome?_append,
            hagree id node name List.mem_cons_self huses]

theorem cons (h : env.scopes ≠ []) {event : Event} (h' : Confined (env.step event) last rest) :
    Confined env last (event :: rest) :=
  (single h event).append h'

end Confined

/-- Apart from functions and blocks, a node changes at most what the innermost scope shows. -/
theorem step_plain {event : Event} (h : event.node.label.opening? = none) (bindings : Bindings)
    (entry : BlockEntry) : ∃ later, step ⟨[bindings], entry⟩ event = ⟨[later], entry⟩ := by
  cases event with
  | leave id node =>
    have hopening : node.label.opening? = none := h
    exact ⟨bindings, by rw [step, leave, hopening]⟩
  | enter id node =>
    have hopening : node.label.opening? = none := h
    rw [step, enter]
    cases hdeclares : node.label.declares? with
    | some decl =>
      have hkind : decl.kind ≠ .function := by
        intro hkind
        rw [(Label.eq_declaration hdeclares).1] at hopening
        simp [Label.opening?, hkind] at hopening
      simp only [if_neg hkind]
      exact ⟨_, rfl⟩
    | none =>
      have hblock : ¬ node.label.isBlock := by simp [← Label.opening?_eq_block, hopening]
      exact ⟨bindings, if_neg hblock⟩

theorem confined_plain {events : List Event} (h : ∀ event ∈ events, event.node.label.opening? = none)
    (bindings : Bindings) (entry : BlockEntry) :
    ∃ later, Confined ⟨[bindings], entry⟩ ⟨[later], entry⟩ events := by
  induction events generalizing bindings with
  | nil => exact ⟨bindings, .nil _⟩
  | cons event events ih =>
    obtain ⟨later, hstep⟩ := step_plain (h event List.mem_cons_self) bindings entry
    obtain ⟨last, hlast⟩ := ih (fun other hmem => h other (List.mem_cons_of_mem _ hmem)) later
    exact ⟨last, .cons (by simp) (by rwa [hstep])⟩

theorem confined_leave (h : ¬ node.label.isBlock) (id : NodeId) :
    Confined ⟨[], .fresh⟩ ⟨[], .fresh⟩ [.leave id node] where
  run outer := by
    rw [← Label.opening?_eq_block] at h
    rw [run_cons, step, leave]
    cases hopening : node.label.opening? with
    | none => rfl
    | some opening =>
      cases opening with
      | block => exact absurd hopening h
      | function => rfl
  readings _ _ _ := rfl

theorem enter_function {decl : Declaration} (hlabel : node.label = .declaration decl)
    (hkind : decl.kind = .function) (id : NodeId) (bindings : Bindings) (entry : BlockEntry) :
    Environment.enter ⟨[bindings], entry⟩ id node =
      Environment.within ⟨[.empty], .reuse⟩ [bindings.declare (decl.definition id node.line)] := by
  have hdeclares : node.label.declares? = some decl := by
    simp [hlabel, Label.declares?, hkind]
  rw [enter, hdeclares]
  exact if_pos hkind

theorem enter_block (h : node.label.isBlock) (id : NodeId) (env : Environment) :
    env.enter id node = env.enterBlock := by
  rw [enter, Label.eq_block h]
  rfl

/-- Between its ends, a list of events adds to the innermost scope at most. -/
def Balanced (events : List Event) : Prop :=
  ∀ bindings, ∃ later, Confined ⟨[bindings], .fresh⟩ ⟨[later], .fresh⟩ events

theorem Balanced.append {events rest : List Event} (h : Balanced events) (h' : Balanced rest) :
    Balanced (events ++ rest) := by
  intro bindings
  obtain ⟨later, hlater⟩ := h bindings
  obtain ⟨last, hlast⟩ := h' later
  exact ⟨last, hlater.append hlast⟩

section Slots

variable {first second third rest : Forest}

theorem confined_body (h : node.label.isBlock)
    (hslots : Balanced (first.events ++ second.events ++ third.events)) (id : NodeId)
    (bindings : Bindings) : Confined ⟨[bindings], .reuse⟩ ⟨[], .fresh⟩
      (Forest.cons id node first second third .nil).events := by
  obtain ⟨later, hlater⟩ := hslots bindings
  refine .cons (by simp) ?_
  rw [step, enter_block h]
  refine hlater.append (.cons (by simp) ?_)
  rw [step, leave, Label.opening?_eq_block.mpr h]
  exact .nil _

theorem confined_function (h : node.label.isFunction) (hparameters : first.IsParameters)
    (hbody : ∀ bindings, Confined ⟨[bindings], .reuse⟩ ⟨[], .fresh⟩ second.events)
    (hthird : third = .nil) (id : NodeId) : Confined ⟨[.empty], .reuse⟩ ⟨[], .fresh⟩
      (first.events ++ second.events ++ third.events ++ [.leave id node]) := by
  subst hthird
  obtain ⟨later, hlater⟩ :=
    confined_plain (fun event hmem => hparameters.opening? hmem) .empty .reuse
  rw [Forest.events_nil, List.append_nil]
  exact (hlater.append (hbody later)).append
    (confined_leave (fun hblock => Label.not_isFunction_of_isBlock hblock h) id)

theorem balanced_block (h : node.label.isBlock)
    (hslots : Balanced (first.events ++ second.events ++ third.events)) (id : NodeId) :
    Balanced (Forest.cons id node first second third .nil).events := by
  intro bindings
  obtain ⟨later, hlater⟩ := hslots .empty
  refine ⟨bindings, .cons (by simp) ?_⟩
  rw [step, enter_block h]
  refine (hlater.within [bindings]).append (.cons (by simp [within]) ?_)
  rw [step, leave, Label.opening?_eq_block.mpr h]
  exact .nil _

theorem balanced_plain (h : node.label.opening? = none)
    (hslots : Balanced (first.events ++ second.events ++ third.events)) (id : NodeId) :
    Balanced (Forest.cons id node first second third .nil).events := by
  have hleave : Balanced [.leave id node] := fun bindings =>
    confined_plain (fun event hmem => by rwa [List.mem_singleton.mp hmem]) bindings .fresh
  intro bindings
  obtain ⟨later, hstep⟩ := @step_plain (.enter id node) h bindings .fresh
  obtain ⟨last, hlast⟩ := hslots.append hleave later
  exact ⟨last, .cons (by simp) (by rwa [hstep])⟩

theorem balanced_function {decl : Declaration} (hlabel : node.label = .declaration decl)
    (hkind : decl.kind = .function)
    (hinside : Confined ⟨[.empty], .reuse⟩ ⟨[], .fresh⟩
      (first.events ++ second.events ++ third.events ++ [.leave id node])) :
    Balanced (Forest.cons id node first second third .nil).events := by
  intro bindings
  refine ⟨bindings.declare (decl.definition id node.line), .cons (by simp) ?_⟩
  rw [step, enter_function hlabel hkind]
  exact hinside.within _

end Slots

/-- Where functions have parameters and a body, every list of nodes is left in the scope that it was
entered in. -/
theorem balanced_shaped {forest : Forest} (h : forest.Shaped) : Balanced forest.events ∧
    (forest.IsBody → ∀ bindings, Confined ⟨[bindings], .reuse⟩ ⟨[], .fresh⟩ forest.events) := by
  -- The body of a function is the only list that is entered while the function waits for it, so the
  -- induction carries what happens to it then beside what happens to every other list.
  induction forest with
  | nil => exact ⟨fun bindings => ⟨bindings, .nil _⟩, nofun⟩
  | cons id node first second third rest ihFirst ihSecond ihThird ihRest =>
    obtain ⟨hfunction, hfirst, hsecond, hthird, hrest⟩ := h
    have hslots : Balanced (first.events ++ second.events ++ third.events) :=
      ((ihFirst hfirst).1.append (ihSecond hsecond).1).append (ihThird hthird).1
    constructor
    · have hevents : (Forest.cons id node first second third rest).events =
          (Forest.cons id node first second third .nil).events ++ rest.events :=
        Forest.events_append (.cons id node first second third .nil) rest
      rw [hevents]
      refine Balanced.append ?_ (ihRest hrest).1
      by_cases hnode : node.label.isFunction
      · obtain ⟨hparameters, hbody, hnothing⟩ := hfunction hnode
        obtain ⟨decl, hlabel, hkind⟩ := Label.exists_declaration hnode
        exact balanced_function hlabel hkind
          (confined_function hnode hparameters ((ihSecond hsecond).2 hbody) hnothing id)
      · by_cases hblock : node.label.isBlock
        · exact balanced_block hblock hslots id
        · exact balanced_plain (Label.opening?_eq_none hnode hblock) hslots id
    · rintro ⟨hblock, rfl⟩
      exact confined_body hblock hslots id

/-- A list of events that declares one thing in the scope that it starts in, and reads nothing there
but the name of that and the names that it uses. -/
structure Introduces (definition : Definition) (events : List Event) : Prop where
  run : ∀ bindings, Environment.run ⟨[bindings], .fresh⟩ events =
    ⟨[bindings.declare definition], .fresh⟩
  readings : ∀ bindings other : Bindings, bindings definition.name = other definition.name →
    AgreeOn events [bindings.declare definition] [other.declare definition] →
      Environment.readings ⟨[bindings], .fresh⟩ events =
        Environment.readings ⟨[other], .fresh⟩ events

theorem Introduces.of_confined {decl : Declaration} {inner : Environment} {events : List Event}
    (hlabel : node.label = .declaration decl) (hkind : decl.kind ≠ .parameter)
    (henter : ∀ bindings, Environment.enter ⟨[bindings], .fresh⟩ id node =
      inner.within [bindings.declare (decl.definition id node.line)])
    (hinside : Confined inner ⟨[], .fresh⟩ events) :
    Introduces (decl.definition id node.line) (.enter id node :: events) where
  run bindings := by
    rw [run_cons, step, henter]
    exact hinside.run _
  readings bindings other hsame hagree := by
    have hdeclares : node.label.declares? = some decl := by
      simp [hlabel, Label.declares?, hkind]
    rw [Environment.readings, Environment.readings, henter, henter,
      hinside.readings _ _ (hagree.of_subset (List.subset_cons_self ..)), reading, reading, hdeclares]
    exact congrArg (fun found => (id, found) :: _) hsame

theorem introduces_function {decl : Declaration} {first second third : Forest}
    (hlabel : node.label = .declaration decl) (hkind : decl.kind = .function)
    (hshaped : (Forest.cons id node first second third .nil).Shaped) :
    Introduces (decl.definition id node.line)
      (Forest.cons id node first second third .nil).events := by
  have hfunction : node.label.isFunction := by simp [hlabel, Label.isFunction, hkind]
  obtain ⟨hparameters, hbody, hnothing⟩ := hshaped.1 hfunction
  have hinside := confined_function hfunction hparameters
    ((balanced_shaped hshaped.2.2.1).2 hbody) hnothing id
  exact .of_confined hlabel (by simp [hkind]) (enter_function hlabel hkind id · .fresh) hinside

theorem introduces_variable {decl : Declaration} (hlabel : node.label = .declaration decl)
    (hkind : decl.kind = .variable) : Introduces (decl.definition id node.line)
      (Forest.cons id node .nil .nil .nil .nil).events := by
  have hdeclares : node.label.declares? = some decl := by
    simp [hlabel, Label.declares?, hkind]
  have hblock : ¬ node.label.isBlock := by simp [hlabel, Label.isBlock]
  refine .of_confined hlabel (by simp [hkind]) (fun bindings => ?_) (confined_leave hblock id)
  rw [enter, hdeclares]
  exact if_neg (by simp [hkind])

/-- Where neither of two lists of events uses the name that the other one declares, the order of the
two changes neither what they find nor what they leave behind. -/
theorem Introduces.exchange {definition other : Definition} {events later : List Event}
    (h : Introduces definition events) (h' : Introduces other later)
    (hne : definition.name ≠ other.name)
    (hunused : ∀ id node, .enter id node ∈ later → node.label.uses? ≠ some definition.name)
    (hunused' : ∀ id node, .enter id node ∈ events → node.label.uses? ≠ some other.name)
    (bindings : Bindings) :
    Environment.run ⟨[bindings], .fresh⟩ (later ++ events) =
        Environment.run ⟨[bindings], .fresh⟩ (events ++ later) ∧
      (Environment.readings ⟨[bindings], .fresh⟩ (later ++ events)).Perm
        (Environment.readings ⟨[bindings], .fresh⟩ (events ++ later)) := by
  -- Whichever comes second starts with one more name around, and that name it does not look up.
  have hlater := h'.readings (bindings.declare definition) bindings
    (Bindings.declare_of_ne hne.symm) fun id node name hmem huses => by
      have hname : name ≠ definition.name := fun heq => hunused id node hmem (heq ▸ huses)
      rw [List.findSome?_singleton, List.findSome?_singleton, Bindings.declare_comm _ hne,
        Bindings.declare_of_ne hname]
  have hevents := h.readings (bindings.declare other) bindings
    (Bindings.declare_of_ne hne) fun id node name hmem huses => by
      have hname : name ≠ other.name := fun heq => hunused' id node hmem (heq ▸ huses)
      rw [List.findSome?_singleton, List.findSome?_singleton, Bindings.declare_comm _ hne.symm,
        Bindings.declare_of_ne hname]
  rw [run_append, run_append, readings_append, readings_append, h.run, h'.run, h.run, h'.run,
    hlater, hevents, Bindings.declare_comm _ hne]
  exact ⟨rfl, List.perm_append_comm⟩

end Environment

end ScopeCheck
