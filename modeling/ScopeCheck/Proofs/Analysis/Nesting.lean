import ScopeCheck.Proofs.Analysis.FunctionShape
import ScopeCheck.Proofs.Analysis.Growth
import ScopeCheck.Proofs.Tree.Enclosing

namespace ScopeCheck

open Forest (Leads Slotted)

namespace Resolution

variable {state : State} {scopes : List ScopeId} {id : NodeId} {node : Node}
  {first second third : Forest}

theorem fresh_enter_body (id : NodeId) (hentry : state.blockEntry = .reuse)
    (h : node.label.isBlock) : Fresh (step state (.enter id node)) state.active.scopes := by
  obtain ⟨facts, hblock⟩ := enterBlock_reuse id hentry
  simp only [step, enter, Label.eq_block h, hblock]
  exact ⟨rfl, rfl⟩

theorem exists_fresh_enter_block (id : NodeId) (h : node.label.isBlock) (hfloor : state.floor ≠ []) :
    ∃ opened, Fresh (step state (.enter id node)) (opened :: state.floor) := by
  obtain ⟨hentry, opened, hscopes⟩ := enter_block id h hfloor
  exact ⟨opened, hentry, hscopes⟩

namespace Fresh

theorem floor_eq (h : Fresh state scopes) : state.floor = scopes := by
  rw [State.floor, h.blockEntry, BlockEntry.settle_fresh, h.scopes]

theorem leave_block {scope : ScopeId} (h : Fresh state (scope :: scopes)) (id : NodeId)
    (hnode : node.label.isBlock) : Fresh (step state (.leave id node)) scopes := by
  obtain ⟨hentry, hscopes⟩ := Resolution.leave_block state id hnode
  refine ⟨hentry.trans h.blockEntry, ?_⟩
  rw [hscopes, h.scopes]
  rfl

theorem run_slots (h : Fresh state scopes) (hscopes : scopes ≠ []) (hfirst : first.Shaped)
    (hsecond : second.Shaped) (hthird : third.Shaped) :
    Fresh (run state (first.events ++ second.events ++ third.events)) scopes := by
  rw [run_append, run_append]
  exact ((h.run_shaped hscopes hfirst).run_shaped hscopes hsecond).run_shaped hscopes hthird

theorem run_slotted (h : Fresh state scopes) (hscopes : scopes ≠ []) (hfirst : first.Shaped)
    (hsecond : second.Shaped) {past : List Event} {kid : Forest}
    (hslot : Slotted first second third past kid) : Fresh (run state past) scopes := by
  cases hslot with
  | first => exact h
  | second => exact h.run_shaped hscopes hfirst
  | third =>
    rw [run_append]
    exact (h.run_shaped hscopes hfirst).run_shaped hscopes hsecond

/-- What is active when a walk of the child slots of a node starts stays so all the way. -/
theorem suffix_run_slotted (h : Fresh state scopes) (hscopes : scopes ≠ []) {p : Label → Bool}
    {around inner : List NodeId} {kid sub : Forest} {past later : List Event}
    (hslot : Slotted first second third past kid) (hkid : Leads p around kid later inner sub) :
    scopes <:+ (run state (past ++ later)).active.scopes := by
  have hsettles := ((settles_forest first).append (settles_forest second)).append
    (settles_forest third)
  have hsuffix := hsettles.floor state (h.floor_eq ▸ hscopes) (past ++ later)
    (hslot.append_prefix_events hkid.prefix_events)
  rw [h.floor_eq] at hsuffix
  exact hsuffix.trans (State.floor_suffix _)

end Fresh

end Resolution

namespace Forest

theorem Slotted.shaped {first second third kid : Forest} {past : List Event}
    (h : Slotted first second third past kid) (hfirst : first.Shaped) (hsecond : second.Shaped)
    (hthird : third.Shaped) : kid.Shaped := by
  cases h with
  | first => exact hfirst
  | second => exact hsecond
  | third => exact hthird

theorem Leads.shaped {p : Label → Bool} {around inner : List NodeId} {forest sub : Forest}
    {before : List Event} (h : Leads p around forest before inner sub) (hforest : forest.Shaped) :
    sub.Shaped := by
  induction h with
  | here => exact hforest
  | inside hslot _ ih =>
    obtain ⟨-, hfirst, hsecond, hthird, -⟩ := hforest
    exact ih (hslot.shaped hfirst hsecond hthird)
  | rest _ ih =>
    obtain ⟨-, -, -, -, hrest⟩ := hforest
    exact ih hrest

variable {around : List NodeId} {kid first second third rest : Forest} {past before : List Event}
  {id : NodeId} {node : Node} {expr : Expression}

/-- All that is in the child slots of a function is a parameter, or the body, or inside of that. -/
theorem not_leads_of_function {f s t r : Forest} {use : NodeId} {useNode : Node}
    (hparameters : first.IsParameters) (hbody : second.IsBody) (hnothing : third = nil)
    (hexpr : useNode.label = .expression expr) (hslot : Slotted first second third past kid) :
    ¬ Leads Label.isBlock around kid before around (.cons use useNode f s t r) := by
  intro hleads
  cases hslot with
  | first =>
    have hparameter := hparameters.isParameter hleads.mem_enter
    simp [Event.node, hexpr, Label.isParameter] at hparameter
  | second =>
    cases hleads with
    | here => simp [IsBody, hexpr, Label.isBlock] at hbody
    | inside hslot h =>
      have hlength := h.suffix.length_le
      rw [Tree.enclose, if_pos hbody.1, List.length_cons] at hlength
      omega
    | rest h =>
      rw [hbody.2] at h
      cases h
  | third =>
    rw [hnothing] at hleads
    cases hleads

end Forest

namespace Resolution

/-- A use that no further block is around has the scopes of the start innermost. -/
theorem Fresh.run_leads {state : State} {scopes : List ScopeId} (h : Fresh state scopes)
    (hscopes : scopes ≠ []) {forest : Forest} (hshaped : forest.Shaped)
    {around inner : List NodeId} {before : List Event} {use : NodeId} {useNode : Node}
    {f s t r : Forest} {expr : Expression} (hexpr : useNode.label = .expression expr)
    (hleads : Leads Label.isBlock around forest before inner (.cons use useNode f s t r))
    (hinner : around = inner) : Fresh (run state before) scopes := by
  generalize hsub : Forest.cons use useNode f s t r = sub at hleads
  induction hleads generalizing state with
  | here => exact h
  | @inside around inner id node first second third rest kid sub past before hslot hkid ih =>
    subst hinner hsub
    obtain ⟨hfunction, hfirst, hsecond, hthird, -⟩ := hshaped
    -- Another block around the use would be one more than there are.
    have hblock : ¬ node.label.isBlock := by
      intro hblock
      have hlength := hkid.suffix.length_le
      rw [Tree.enclose, if_pos hblock, List.length_cons] at hlength
      omega
    have haround : Tree.enclose Label.isBlock id node around = around := if_neg hblock
    rw [haround] at hkid
    have hplain : ¬ node.label.isFunction := by
      intro hnode
      obtain ⟨hparameters, hbody, hnothing⟩ := hfunction hnode
      exact Forest.not_leads_of_function hparameters hbody hnothing hexpr hslot hkid
    obtain ⟨hentry, hactive⟩ := enter_other state id (Label.opening?_eq_none hplain hblock)
    have hentered : Fresh (step state (.enter id node)) scopes :=
      ⟨hentry.trans h.blockEntry, hactive.trans h.scopes⟩
    rw [run_cons, run_append]
    exact ih (hentered.run_slotted hscopes hfirst hsecond hslot)
      (hslot.shaped hfirst hsecond hthird) haround rfl
  | @rest around inner id node first second third rest sub before _ ih =>
    obtain ⟨hfunction, hfirst, hsecond, hthird, hrest⟩ := hshaped
    have hwhole : (Forest.cons id node first second third .nil).Shaped :=
      ⟨hfunction, hfirst, hsecond, hthird, trivial⟩
    have hpast := ih (h.run_shaped hscopes hwhole) hrest hinner hsub
    rw [← run_append] at hpast
    simpa [Forest.events_cons] using hpast

/-- A node opens the scope `opened`: it is active at every declaration below the node, and `outer`
is left of the active scopes after the node. -/
structure Opens (state : State) (id : NodeId) (node : Node) (first second third : Forest)
    (opened : ScopeId) (outer : List ScopeId) : Prop where
  within {p : Label → Bool} {around inner : List NodeId} {kid : Forest} {past later : List Event}
    {decl : NodeId} {declNode : Node} {f s t r : Forest} (hslot : Slotted first second third past kid)
    (hkid : Leads p around kid later inner (.cons decl declNode f s t r))
    (hdecl : ¬ declNode.label.isBlock) :
    opened :: outer <:+ (run state (.enter id node :: (past ++ later))).active.scopes
  after : (run state (.enter id node :: (first.events ++ second.events ++ third.events
    ++ [.leave id node]))).active.scopes = outer

section Opens

variable {state : State} {id : NodeId} {node : Node} {first second third : Forest}

theorem exists_opens_block (h : node.label.isBlock) (hfloor : state.floor ≠ [])
    (hfirst : first.Shaped) (hsecond : second.Shaped) (hthird : third.Shaped) :
    ∃ opened, Opens state id node first second third opened state.floor := by
  obtain ⟨opened, hentered⟩ := exists_fresh_enter_block id h hfloor
  have hscopes : opened :: state.floor ≠ [] := List.cons_ne_nil _ _
  refine ⟨opened, ⟨fun hslot hkid _ => hentered.suffix_run_slotted hscopes hslot hkid, ?_⟩⟩
  rw [run_cons, run_append]
  exact ((hentered.run_slots hscopes hfirst hsecond hthird).leave_block id h).scopes

theorem fresh_parameters_body (state : State) (id body : NodeId) (h : node.label.isFunction)
    (hparameters : first.IsParameters) {bodyNode : Node} (hblock : bodyNode.label.isBlock) :
    Fresh (run state (.enter id node :: (first.events ++ [.enter body bodyNode])))
      (state.scopes.size :: state.active.scopes) := by
  obtain ⟨hentry, hopened⟩ := enter_function_opens state id h
  obtain ⟨hentry', hopened'⟩ := @run_plain (step state (.enter id node)) first.events
    fun event hmem => hparameters.opening? hmem
  have hentered := fresh_enter_body body (hentry'.trans hentry) hblock
  rw [hopened', hopened] at hentered
  rw [run_cons, run_append]
  exact hentered

theorem fresh_function (state : State) (id : NodeId) (h : node.label.isFunction)
    (hparameters : first.IsParameters) (hbody : second.IsBody) (hshaped : second.Shaped) :
    Fresh (run state (.enter id node :: (first.events ++ second.events))) state.active.scopes := by
  cases second with
  | nil => cases hbody
  | cons body bodyNode f s t rest =>
  obtain ⟨hblock, rfl⟩ := hbody
  obtain ⟨-, hf, hs, ht, -⟩ := hshaped
  have hentered := fresh_parameters_body state id body h hparameters hblock
  have hleft := (hentered.run_slots (List.cons_ne_nil _ _) hf hs ht).leave_block body hblock
  have hevents : Event.enter id node :: (first.events
      ++ (Forest.cons body bodyNode f s t .nil).events) =
        .enter id node :: (first.events ++ [.enter body bodyNode])
          ++ (f.events ++ s.events ++ t.events) ++ [.leave body bodyNode] := by
    simp [Forest.events_cons]
  rw [hevents, run_append, run_append]
  exact hleft

theorem exists_opens_function (h : node.label.isFunction) (hparameters : first.IsParameters)
    (hbody : second.IsBody) (hnothing : third = .nil) (hshaped : second.Shaped) :
    ∃ opened, Opens state id node first second third opened state.active.scopes := by
  obtain ⟨-, hopened⟩ := enter_function_opens state id h
  have hafter := fresh_function state id h hparameters hbody hshaped
  cases second with
  | nil => cases hbody
  | cons body bodyNode f s t rest =>
  obtain ⟨hblock, rfl⟩ := hbody
  subst hnothing
  have hentered := fresh_parameters_body state id body h hparameters hblock
  refine ⟨state.scopes.size, ⟨?_, ?_⟩⟩
  · intro p around inner kid past later decl declNode _ _ _ _ hslot hkid hdecl
    cases hslot with
    | first =>
      obtain ⟨-, hlater⟩ := @run_plain (step state (.enter id node)) later
        fun event hmem => hparameters.opening? (hkid.prefix_events.subset hmem)
      exact (hlater.trans hopened) ▸ List.suffix_refl _
    | second =>
      cases hkid with
      | here => exact absurd hblock hdecl
      | rest hnil => cases hnil
      | inside hslot hkid =>
        have hinside := hentered.suffix_run_slotted (List.cons_ne_nil _ _) hslot hkid
        rw [← run_append] at hinside
        simpa using hinside
    | third => cases hkid
  · have hevents : Event.enter id node :: (first.events
        ++ (Forest.cons body bodyNode f s t .nil).events ++ Forest.nil.events ++ [.leave id node]) =
          .enter id node :: (first.events ++ (Forest.cons body bodyNode f s t .nil).events)
            ++ [.leave id node] := by
      simp
    rw [hevents, run_concat, (leave_function _ id h).2, hafter.floor_eq]

theorem exists_opens {rest : Forest} (hshaped : (Forest.cons id node first second third rest).Shaped)
    (hfloor : state.floor ≠ []) (hopening : node.label.opening? ≠ none) :
    ∃ opened outer, Opens state id node first second third opened outer := by
  obtain ⟨hfunction, hfirst, hsecond, hthird, -⟩ := hshaped
  obtain ⟨opening, hopening⟩ := Option.ne_none_iff_exists'.mp hopening
  cases opening with
  | block =>
    have hblock := Label.opening?_eq_block.mp hopening
    obtain ⟨opened, hopens⟩ := exists_opens_block hblock hfloor hfirst hsecond hthird
    exact ⟨opened, _, hopens⟩
  | function =>
    have hnode := Label.opening?_eq_function.mp hopening
    obtain ⟨hparameters, hbody, hnothing⟩ := hfunction hnode
    obtain ⟨opened, hopens⟩ := exists_opens_function hnode hparameters hbody hnothing hsecond
    exact ⟨opened, _, hopens⟩

variable {opened : ScopeId} {outer : List ScopeId}

theorem Opens.not_mem_scopes (hsound : state.Sound)
    (h : Opens state id node first second third opened outer) {p : Label → Bool}
    {around inner : List NodeId} {kid : Forest} {past later : List Event} {decl : NodeId}
    {declNode : Node} {f s t r : Forest} (hslot : Slotted first second third past kid)
    (hkid : Leads p around kid later inner (.cons decl declNode f s t r))
    (hdecl : ¬ declNode.label.isBlock) {top : Nat}
    (htop : (run state (.enter id node :: (past ++ later))).top = some top) (more : List Event) :
    top ∉ (run state (.enter id node :: (first.events ++ second.events ++ third.events
      ++ .leave id node :: more))).active.scopes := by
  have hat : (run state (.enter id node :: (past ++ later))).Sound := sound_run hsound _
  have hlt := hat.lt_size top htop
  obtain ⟨others, hothers⟩ := hslot.append_prefix_events hkid.prefix_events
  have hleft : run state (.enter id node :: (first.events ++ second.events ++ third.events
      ++ .leave id node :: more)) =
        run (run state (.enter id node :: (first.events ++ second.events ++ third.events
          ++ [.leave id node]))) more := by
    rw [← run_append]
    simp
  intro hmem
  rw [hleft] at hmem
  rcases mem_scopes_run hmem with hmem | hsize
  · -- It is the innermost scope at the declaration, so it is not among those around `opened`.
    rw [h.after] at hmem
    have hnodup := hat.nodup_scopes
    have hsuffix := h.within hslot hkid hdecl
    rw [State.top_eq_head?] at htop
    obtain ⟨tail, hscopes⟩ := List.head?_eq_some_iff.mp htop
    rw [hscopes] at hnodup hsuffix
    have htail : outer <:+ tail := by
      rcases List.suffix_cons_iff.mp hsuffix with heq | hsuffix
      · exact (List.cons.inj heq).2 ▸ List.suffix_refl _
      · exact (List.suffix_cons _ _).trans hsuffix
    exact (List.nodup_cons.mp hnodup).1 (htail.subset hmem)
  · -- It is older than all scopes that are created after the node.
    have hgrows : Grows (run state (.enter id node :: (past ++ later)))
        (run (run state (.enter id node :: (past ++ later))) (others ++ [.leave id node]))
          (others ++ [.leave id node]) := grows_run _
    have hle := hgrows.scopes.size_le
    rw [← run_append, List.cons_append, ← List.append_assoc, hothers] at hle
    exact absurd (Nat.le_trans hle hsize) (Nat.not_le_of_lt hlt)

end Opens

end Resolution

end ScopeCheck
