import ScopeCheck.Proofs.Analysis.FunctionBody
import ScopeCheck.Proofs.Tree.Walk

namespace ScopeCheck

open Forest (Leads Slotted)
open ScopeCheck.Tree (enclose)

/-- A node that stands in the second child slot of a function. -/
def Tree.IsBody (tree : Tree) (id : NodeId) : Prop :=
  ∃ function node, tree.Reachable function ∧ tree.node? function = some node ∧
    node.label.isFunction ∧ node.children.second = some id

theorem Forest.Leads.not_nil {p : Label → Bool} {around inner : List NodeId} {before : List Event}
    {id : NodeId} {node : Node} {first second third rest : Forest} :
    ¬ Leads p around .nil before inner (.cons id node first second third rest) :=
  nofun

theorem Forest.events_single_append (id : NodeId) (node : Node) (first second third : Forest)
    (later : List Event) :
    (cons id node first second third .nil).events ++ later =
      .enter id node :: (first.events ++ second.events ++ third.events
        ++ .leave id node :: later) := by
  simp [events_cons]

theorem Forest.Slotted.walk_kid {first second third rest kid : Forest} {id : NodeId} {node : Node}
    {past start walk : List Event} (hslot : Slotted first second third past kid)
    (h : start ++ (cons id node first second third rest).events <+: walk) :
    start ++ [.enter id node] ++ past ++ kid.events <+: walk := by
  obtain ⟨after, hkids⟩ := hslot.events_eq
  refine List.IsPrefix.trans ?_ h
  rw [events_cons, hkids]
  simp

namespace Resolution

/-- Where the note of a function waits, the walk goes on with the parameters or with the body. -/
def Ready (tree : Tree) (state : State) (forest : Forest) : Prop :=
  state.blockEntry = .reuse → forest.IsParameters ∨ ∃ body node first second third,
    forest = .cons body node first second third .nil ∧ node.label.isBlock ∧ tree.IsBody body

namespace Ready

variable {tree : Tree} {state : State} {id : NodeId} {node : Node}
  {first second third rest : Forest}

theorem of_fresh {forest : Forest} (h : state.blockEntry = .fresh) : Ready tree state forest := by
  intro hentry
  rw [h] at hentry
  cases hentry

theorem fresh (h : Ready tree state (.cons id node first second third rest))
    (hparameter : ¬ node.label.isParameter) (hblock : ¬ node.label.isBlock) :
    state.blockEntry = .fresh := by
  cases hentry : state.blockEntry with
  | fresh => rfl
  | reuse =>
    rcases h hentry with hparameters | ⟨_, _, _, _, _, heq, hbody, -⟩
    · exact absurd hparameters.1 hparameter
    · cases heq
      exact absurd hbody hblock

end Ready

/-- Something about a part of a walk and the nodes around its end is kept by what leaves the active
scopes as they are, and by each function and block that is entered. -/
structure Carries (tree : Tree) (builtins : Bool) (p : Label → Bool)
    (motive : List NodeId → List Event → Prop) : Prop where
  opens : ∀ label, p label → label.opening? ≠ none
  pass {around : List NodeId} {before events : List Event} (h : motive around before)
    (hentry : (run (.start builtins) (before ++ events)).blockEntry =
      (run (.start builtins) before).blockEntry)
    (hscopes : (run (.start builtins) (before ++ events)).active.scopes =
      (run (.start builtins) before).active.scopes) : motive around (before ++ events)
  function {around : List NodeId} {before : List Event} {id : NodeId} {node : Node}
    (h : motive around before) (hwalk : before ++ [.enter id node] <+: tree.events)
    (hnode : node.label.isFunction) (hentry : (run (.start builtins) before).blockEntry = .fresh) :
    motive (enclose p id node around) (before ++ [.enter id node])
  block {around : List NodeId} {before : List Event} {id : NodeId} {node : Node}
    (h : motive around before) (hwalk : before ++ [.enter id node] <+: tree.events)
    (hnode : node.label.isBlock) : motive (enclose p id node around) (before ++ [.enter id node])

namespace Carries

variable {tree : Tree} {builtins : Bool} {p : Label → Bool}
  {motive : List NodeId → List Event → Prop} {around inner : List NodeId} {start before : List Event}
  {id : NodeId} {node : Node} {first second third rest kid : Forest} {past : List Event}

theorem pass_plain (hcarries : Carries tree builtins p motive) (h : motive around start)
    {events : List Event} (hplain : ∀ event ∈ events, event.node.label.opening? = none) :
    motive around (start ++ events) := by
  obtain ⟨hentry, hscopes⟩ := @run_plain (run (.start builtins) start) events hplain
  rw [← run_append] at hentry hscopes
  exact hcarries.pass h hentry hscopes

theorem pass_fresh (hcarries : Carries tree builtins p motive) (h : motive around start)
    {scopes : List ScopeId} (hfresh : Fresh (run (.start builtins) start) scopes)
    {events : List Event} (hlater : Fresh (run (run (.start builtins) start) events) scopes) :
    motive around (start ++ events) := by
  rw [← run_append] at hlater
  exact hcarries.pass h (hlater.blockEntry.trans hfresh.blockEntry.symm)
    (hlater.scopes.trans hfresh.scopes.symm)

theorem inside_block (hcarries : Carries tree builtins p motive) (h : motive around start)
    (hwalk : start ++ [.enter id node] <+: tree.events) (hnode : node.label.isBlock)
    (hfirst : first.Shaped) (hsecond : second.Shaped)
    (hslot : Slotted first second third past kid) :
    motive (enclose p id node around) (start ++ [.enter id node] ++ past) ∧
      Ready tree (run (.start builtins) (start ++ [.enter id node] ++ past)) kid := by
  obtain ⟨opened, hfresh⟩ := exists_fresh_enter_block id hnode
    (floor_ne_nil builtins ((List.prefix_append _ _).trans hwalk))
  rw [← run_concat] at hfresh
  have hpast := hfresh.run_slotted (List.cons_ne_nil _ _) hfirst hsecond hslot
  refine ⟨hcarries.pass_fresh (hcarries.block h hwalk hnode) hfresh hpast, .of_fresh ?_⟩
  rw [run_append]
  exact hpast.blockEntry

theorem inside_function (hcarries : Carries tree builtins p motive) (h : motive around start)
    (hwalk : start ++ [.enter id node] <+: tree.events) (hnode : node.label.isFunction)
    (hentry : (run (.start builtins) start).blockEntry = .fresh) (hwell : tree.WellLinked)
    (hparameters : first.IsParameters) (hbody : second.IsBody) (hnothing : third = .nil)
    (hunfolds : tree.Unfolds node.children.second second)
    (hslot : Slotted first second third past kid) (hkid : kid ≠ .nil) :
    motive (enclose p id node around) (start ++ [.enter id node] ++ past) ∧
      Ready tree (run (.start builtins) (start ++ [.enter id node] ++ past)) kid := by
  have hentered := hcarries.function h hwalk hnode hentry
  cases hslot with
  | first => exact ⟨(List.append_nil _).symm ▸ hentered, fun _ => .inl hparameters⟩
  | second =>
    refine ⟨hcarries.pass_plain hentered fun event hmem => hparameters.opening? hmem, fun _ => ?_⟩
    cases second with
    | nil => cases hbody
    | cons body bodyNode f s t others =>
      obtain ⟨hblock, rfl⟩ := hbody
      have hmem : Event.enter id node ∈ tree.events := hwalk.subset (by simp)
      obtain ⟨hid, hidNode⟩ := hwell.enter_mem_iff.mp hmem
      exact .inr ⟨body, bodyNode, f, s, t, rfl, hblock, id, node, hid, hidNode, hnode,
        hunfolds.start_eq.1⟩
  | third => exact absurd hnothing hkid

theorem inside_other (hcarries : Carries tree builtins p motive) (h : motive around start)
    (hopening : node.label.opening? = none) (hfirst : first.Shaped) (hsecond : second.Shaped)
    (hscopes : (run (.start builtins) start).active.scopes ≠ [])
    (hready : Ready tree (run (.start builtins) start) (.cons id node first second third rest))
    (hslot : Slotted first second third past kid) (hkid : kid ≠ .nil) :
    motive (enclose p id node around) (start ++ [.enter id node] ++ past) ∧
      Ready tree (run (.start builtins) (start ++ [.enter id node] ++ past)) kid := by
  have haround : enclose p id node around = around := if_neg fun h => hcarries.opens _ h hopening
  have hentry : (run (.start builtins) start).blockEntry = .fresh := by
    cases hentry : (run (.start builtins) start).blockEntry with
    | fresh => rfl
    | reuse =>
      rcases hready hentry with ⟨-, rfl, rfl, rfl, -⟩ | ⟨_, _, _, _, _, heq, hblock, -⟩
      · cases hslot <;> exact absurd rfl hkid
      · cases heq
        rw [Label.opening?_eq_block.mpr hblock] at hopening
        cases hopening
  obtain ⟨hentry', hscopes'⟩ := enter_other (run (.start builtins) start) id hopening
  have hfresh : Fresh (run (.start builtins) (start ++ [.enter id node]))
      (run (.start builtins) start).active.scopes := by
    rw [run_concat]
    exact ⟨hentry'.trans hentry, hscopes'⟩
  have hpast := hfresh.run_slotted hscopes hfirst hsecond hslot
  have hentered : motive around (start ++ [.enter id node]) :=
    hcarries.pass_plain h (by simpa [Event.node] using hopening)
  rw [haround]
  refine ⟨hcarries.pass_fresh hentered hfresh hpast, .of_fresh ?_⟩
  rw [run_append]
  exact hpast.blockEntry

theorem inside_node (hcarries : Carries tree builtins p motive) (hwell : tree.WellLinked)
    (h : motive around start) (hshaped : (Forest.cons id node first second third rest).Shaped)
    (hunfolds : tree.Unfolds node.children.second second)
    (hwalk : start ++ [.enter id node] <+: tree.events)
    (hready : Ready tree (run (.start builtins) start) (.cons id node first second third rest))
    (hslot : Slotted first second third past kid) (hkid : kid ≠ .nil) :
    motive (enclose p id node around) (start ++ [.enter id node] ++ past) ∧
      Ready tree (run (.start builtins) (start ++ [.enter id node] ++ past)) kid := by
  obtain ⟨hfunction, hfirst, hsecond, -, -⟩ := hshaped
  by_cases hblock : node.label.isBlock
  · exact hcarries.inside_block h hwalk hblock hfirst hsecond hslot
  by_cases hnode : node.label.isFunction
  · obtain ⟨hparameters, hbody, hnothing⟩ := hfunction hnode
    have hentry := hready.fresh (Label.not_isParameter_of_isFunction hnode) hblock
    exact hcarries.inside_function h hwalk hnode hentry hwell hparameters hbody hnothing hunfolds
      hslot hkid
  · have hopening : node.label.opening? = none := Label.opening?_eq_none hnode hblock
    have hscopes := scopes_ne_nil builtins ((List.prefix_append _ _).trans hwalk)
    exact hcarries.inside_other h hopening hfirst hsecond hscopes hready hslot hkid

theorem past_node (hcarries : Carries tree builtins p motive) (h : motive around start)
    (hshaped : (Forest.cons id node first second third rest).Shaped) (hrest : rest ≠ .nil)
    (hscopes : (run (.start builtins) start).active.scopes ≠ [])
    (hready : Ready tree (run (.start builtins) start) (.cons id node first second third rest)) :
    motive around (start ++ (Forest.cons id node first second third .nil).events) ∧
      Ready tree (run (.start builtins)
        (start ++ (Forest.cons id node first second third .nil).events)) rest := by
  obtain ⟨hfunction, hfirst, hsecond, hthird, -⟩ := hshaped
  cases hentry : (run (.start builtins) start).blockEntry with
  | fresh =>
    have hfresh : Fresh (run (.start builtins) start)
        (run (.start builtins) start).active.scopes := ⟨hentry, rfl⟩
    have hwhole : (Forest.cons id node first second third .nil).Shaped :=
      ⟨hfunction, hfirst, hsecond, hthird, trivial⟩
    have hpast := hfresh.run_shaped hscopes hwhole
    refine ⟨hcarries.pass_fresh h hfresh hpast, .of_fresh ?_⟩
    rw [run_append]
    exact hpast.blockEntry
  | reuse =>
    rcases hready hentry with hparameters | ⟨_, _, _, _, _, heq, -, -⟩
    · obtain ⟨hparameter, hnoFirst, hnoSecond, hnoThird, hparametersRest⟩ := hparameters
      have hwhole : (Forest.cons id node first second third .nil).IsParameters :=
        ⟨hparameter, hnoFirst, hnoSecond, hnoThird, trivial⟩
      exact ⟨hcarries.pass_plain h fun event hmem => hwhole.opening? hmem,
        fun _ => .inl hparametersRest⟩
    · cases heq
      exact absurd rfl hrest

/-- What is carried to a list is carried to all that is in the list, and further down. -/
theorem of_leads (hcarries : Carries tree builtins p motive) (hwell : tree.WellLinked)
    {forest : Forest} {f s t r : Forest}
    (hleads : Leads p around forest before inner (.cons id node f s t r))
    {top : Option NodeId} (hunfolds : tree.Unfolds top forest) (hshaped : forest.Shaped)
    (hwalk : start ++ forest.events <+: tree.events)
    (hready : Ready tree (run (.start builtins) start) forest) (h : motive around start) :
    motive inner (start ++ before) ∧
      Ready tree (run (.start builtins) (start ++ before)) (.cons id node f s t r) := by
  generalize hsub : Forest.cons id node f s t r = sub at hleads
  have hstart : start <+: tree.events := (List.prefix_append _ _).trans hwalk
  induction hleads generalizing start top with
  | here => exact ⟨(List.append_nil start).symm ▸ h, (List.append_nil start).symm ▸ hready⟩
  | @inside around inner other otherNode first second third rest kid sub past before hslot hkid ih =>
    subst hsub
    have hcons : kid ≠ .nil := by
      rintro rfl
      exact hkid.not_nil
    have hwalkKid := hslot.walk_kid hwalk
    have hentered : start ++ [.enter other otherNode] <+: tree.events :=
      (List.prefix_append _ _).trans ((List.prefix_append _ _).trans hwalkKid)
    cases hunfolds with
    | cons _ hunfoldsFirst hunfoldsSecond hunfoldsThird _ =>
    obtain ⟨hmotive, hreadyKid⟩ :=
      hcarries.inside_node hwell h hshaped hunfoldsSecond hentered hready hslot hcons
    obtain ⟨-, hfirst, hsecond, hthird, -⟩ := hshaped
    obtain ⟨slot, hunfoldsKid⟩ := hslot.unfolds hunfoldsFirst hunfoldsSecond hunfoldsThird
    have hinner := ih hunfoldsKid (hslot.shaped hfirst hsecond hthird) hwalkKid hreadyKid hmotive rfl
      ((List.prefix_append _ _).trans hwalkKid)
    simpa using hinner
  | @rest around inner other otherNode first second third rest sub before hrest ih =>
    subst hsub
    have hcons : rest ≠ .nil := by
      rintro rfl
      exact hrest.not_nil
    have hwalkRest : start ++ (Forest.cons other otherNode first second third .nil).events
        ++ rest.events <+: tree.events := by
      rw [List.append_assoc, Forest.events_single_append, ← Forest.events_cons]
      exact hwalk
    obtain ⟨hmotive, hreadyRest⟩ :=
      hcarries.past_node h hshaped hcons (scopes_ne_nil builtins hstart) hready
    obtain ⟨-, -, -, -, hshapedRest⟩ := hshaped
    cases hunfolds with
    | cons _ _ _ _ hunfoldsRest =>
    rw [← Forest.events_single_append, ← List.append_assoc]
    exact ih hunfoldsRest hshapedRest hwalkRest hreadyRest hmotive rfl
      ((List.prefix_append _ _).trans hwalkRest)

/-- What holds at the start of a walk is carried to each node. -/
theorem of_inside (hcarries : Carries tree builtins p motive) (hwell : tree.WellLinked)
    (hshaped : tree.forest.Shaped) (h : motive [] []) (hinside : tree.Inside p around id)
    {after : List Event} (hevents : tree.events = before ++ .enter id node :: after) :
    motive around before ∧ ∃ first second third rest,
      Ready tree (run (.start builtins) before) (.cons id node first second third rest) := by
  have hmem : Event.enter id node ∈ tree.events := by simp [hevents]
  obtain ⟨before', after', f, s, t, r, hleads, hevents'⟩ :=
    hinside.exists_walk hwell (hwell.enter_mem_iff.mp hmem).2
  obtain ⟨rfl, -⟩ := Tree.enter_unique hwell hevents hevents'
  have hwalk : [] ++ tree.forest.events <+: tree.events := by
    rw [List.nil_append, Tree.events_forest]
  have hstart : Ready tree (run (.start builtins) []) tree.forest :=
    .of_fresh (State.start_blockEntry builtins)
  obtain ⟨hmotive, hready⟩ := hcarries.of_leads hwell hleads hwell.unfolds hshaped hwalk hstart h
  exact ⟨hmotive, f, s, t, r, hready⟩

end Carries

variable {tree : Tree} {id : NodeId} {node : Node} {before after : List Event}

theorem ready_of_enter (hwell : tree.WellLinked) (hshaped : tree.forest.Shaped) (builtins : Bool)
    (hevents : tree.events = before ++ .enter id node :: after) : ∃ first second third rest,
      Ready tree (run (.start builtins) before) (.cons id node first second third rest) := by
  have hcarries : Carries tree builtins Label.isBlock fun _ _ => True :=
    ⟨fun label hblock => by simp [Label.opening?_eq_block.mpr hblock], fun _ _ _ => trivial,
      fun _ _ _ _ => trivial, fun _ _ _ => trivial⟩
  have hmem : Event.enter id node ∈ tree.events := by simp [hevents]
  obtain ⟨around, hinside⟩ :=
    (Tree.reachable_iff_exists_inside Label.isBlock).mp (hwell.enter_mem_iff.mp hmem).1
  exact (hcarries.of_inside hwell hshaped trivial hinside hevents).2

theorem blockEntry_of_enter_function (hwell : tree.WellLinked) (hshaped : tree.forest.Shaped)
    (builtins : Bool) (hevents : tree.events = before ++ .enter id node :: after)
    (hnode : node.label.isFunction) : (run (.start builtins) before).blockEntry = .fresh := by
  obtain ⟨_, _, _, _, hready⟩ := ready_of_enter hwell hshaped builtins hevents
  exact hready.fresh (Label.not_isParameter_of_isFunction hnode)
    fun hblock => Label.not_isFunction_of_isBlock hblock hnode

/-- A block that finds a note of a function is the body of that function. -/
theorem blockEntry_of_enter_block (hwell : tree.WellLinked) (hshaped : tree.forest.Shaped)
    (builtins : Bool) (hevents : tree.events = before ++ .enter id node :: after)
    (hnode : node.label.isBlock) (hbody : ¬ tree.IsBody id) :
    (run (.start builtins) before).blockEntry = .fresh := by
  obtain ⟨_, _, _, _, hready⟩ := ready_of_enter hwell hshaped builtins hevents
  cases hentry : (run (.start builtins) before).blockEntry with
  | fresh => rfl
  | reuse =>
    rcases hready hentry with ⟨hparameter, -⟩ | ⟨_, _, _, _, _, heq, -, hisBody⟩
    · rw [Label.eq_block hnode] at hparameter
      cases hparameter
    · cases heq
      exact absurd hisBody hbody

end Resolution

end ScopeCheck
