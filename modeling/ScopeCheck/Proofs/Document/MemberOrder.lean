import ScopeCheck.Proofs.Document.Links
import ScopeCheck.Proofs.Json.Grammar
import ScopeCheck.Proofs.Json.Order

namespace ScopeCheck

open Json

theorem NodeKind.ignoresOrder_ofJson? : IgnoresOrder NodeKind.ofJson? :=
  fun _ _ h => by
    rw [ofJson?, ignoresOrder_text? h, ignoresOrder_place? h, ofJson?]

section Members

variable {members others : List (String × Json)}

theorem Label.ofMembers?_reorder (h : MembersReorder members others) (kind : NodeKind) :
    Label.ofMembers? others kind = Label.ofMembers? members kind := by
  have hname := h.member?_eq ignoresOrder_text? "name"
  have htype := h.member?_eq (ignoresOrder_word?.comp (·.bind ValueType.ofWord?)) "type"
  cases kind with
  | ifThen | whileDo | block | ret => rfl
  | operation =>
    have hop := h.member?_eq (ignoresOrder_word?.comp (·.bind Operator.ofWord?)) "op"
    simp only [Label.ofMembers?, hop]
  | constant => simp only [Label.ofMembers?, h.member?_eq ignoresOrder_int64?]
  | identifier | element | call => simp only [Label.ofMembers?, hname]
  | «variable» =>
    have hsize := h.memberD_eq (ignoresOrder_nullable? ignoresOrder_word32?) "size"
    simp only [Label.ofMembers?, hname, htype, hsize]
  | function => simp only [Label.ofMembers?, hname, htype]
  | parameter => simp only [Label.ofMembers?, htype, h.memberD_eq ignoresOrder_text?]

def Entry.ofMembers? (members : List (String × Json)) : Option Entry := do
  let kind ← member? "kind" members NodeKind.ofJson?
  let label ← Label.ofMembers? members kind
  let line ← memberD "line" members word32? 0
  let children ← memberD "children" members (list? (nullable? place?)) []
  let sibling ← memberD "sibling" members (nullable? place?) none
  return ⟨label, line, children, sibling⟩

theorem Entry.ofJson?_eq (value : Json) :
    Entry.ofJson? value =
      (guard (value.hasValues && value.nesting ≤ maxNesting) : Option Unit).bind
        fun _ => value.namedMembers?.bind Entry.ofMembers? :=
  rfl

theorem Entry.ofMembers?_reorder (h : MembersReorder members others) :
    Entry.ofMembers? others = Entry.ofMembers? members := by
  have hplace := ignoresOrder_nullable? ignoresOrder_place?
  simp only [Entry.ofMembers?, h.member?_eq NodeKind.ignoresOrder_ofJson?,
    Label.ofMembers?_reorder h, h.memberD_eq ignoresOrder_word32?,
    h.memberD_eq (ignoresOrder_list? hplace), h.memberD_eq hplace]

theorem Entry.ignoresOrder_ofJson? : IgnoresOrder Entry.ofJson? := by
  intro value other h
  have hmembers : other.namedMembers?.bind ofMembers? = value.namedMembers?.bind ofMembers? :=
    ignoresOrder_bind_namedMembers? (fun _ _ => ofMembers?_reorder) h
  rw [ofJson?_eq, ignoresOrder_hasValues h, ignoresOrder_nesting h, hmembers, ← ofJson?_eq]

theorem Document.ofMembers?_reorder (h : MembersReorder members others) :
    Document.ofMembers? others = Document.ofMembers? members := by
  have hplace := ignoresOrder_nullable? ignoresOrder_place?
  simp only [Document.ofMembers?, h.memberD_eq hplace,
    h.memberD_eq (ignoresOrder_list? Entry.ignoresOrder_ofJson?)]

end Members

namespace Document

theorem ofJson?_array_of_two_lt {items : List Json} (h : 2 < items.length) :
    ofJson? (.array items) = none := by
  match items with
  | [] | [_] | [_, _] => simp at h
  | _ :: _ :: _ :: _ => rfl

theorem ofJson?_object (members : List (Literal × Json)) :
    ofJson? (.object members) = (Json.object members).namedMembers?.bind ofMembers? := rfl

theorem ignoresOrder_ofJson? : IgnoresOrder ofJson? := by
  intro value other hother
  have hmembers := ignoresOrder_bind_namedMembers? (fun _ _ => ofMembers?_reorder) hother
  cases hother with
  | members | member => exact hmembers
  | item before after h =>
    match before, after with
    | [], [] => exact ofMembers?_reorder (.value [] "root" [] h)
    | [], [nodes] => exact ofMembers?_reorder (.value [] "root" [("nodes", nodes)] h)
    | [root], [] => exact ofMembers?_reorder (.value [("root", root)] "nodes" [] h)
    | [], _ :: _ :: _ | [_], _ :: _ | _ :: _ :: _, _ =>
      rw [ofJson?_array_of_two_lt, ofJson?_array_of_two_lt]
      all_goals
        simp only [List.length_append, List.length_cons]
        omega

/-- The root and the nodes may be given by their names or, in an array, by their places. -/
theorem ofJson?_pair (root nodes : Json) :
    ofJson? (.array [root, nodes]) = ofJson? (.ofMembers [("root", root), ("nodes", nodes)]) := by
  rw [ofMembers, ofJson?_object, ← ofMembers, namedMembers?_ofMembers]
  rfl

end Document

namespace Tree

theorem ofText_congr {text other : String} {value rewritten : Json}
    (htext : Json.parse? text.toList = some value)
    (hother : Json.parse? other.toList = some rewritten)
    (h : Document.ofJson? rewritten = Document.ofJson? value) : ofText other = ofText text := by
  have hdocument : Document.parse? other.toList = Document.parse? text.toList := by
    simp only [Document.parse?, htext, hother, Option.bind_eq_bind, Option.bind_some, h]
  rw [ofText, hdocument, ofText]

/-- The tree that a text gives, or the error, depends neither on the blanks between its tokens nor on
the order of members, in the document as in the objects inside it. An array of the root and the
nodes gives what the object gives that names the two. -/
theorem ofText_rearranged {text : String} {value : Json}
    (h : Json.parse? text.toList = some value) :
    (∃ lexemes, value.SpelledBy lexemes ∧ Spaced lexemes text.toList ∧
      ∀ other : String, Spaced lexemes other.toList → ofText other = ofText text) ∧
    (∀ (other : String) (reordered : Json), Rearranged value reordered →
      reordered.WrittenAs other.toList → ofText other = ofText text) ∧
    ∀ (other : String) (root nodes : Json), value = .array [root, nodes] →
      (ofMembers [("root", root), ("nodes", nodes)]).WrittenAs other.toList →
      ofText other = ofText text := by
  obtain ⟨lexemes, hlexemes, hspaced⟩ := parse?_eq_some_iff.mp h
  refine ⟨⟨lexemes, hlexemes, hspaced, fun other hother => ?_⟩,
    fun other reordered hreordered hother => ?_, fun other root nodes hvalue hother => ?_⟩
  · exact ofText_congr h (parse?_eq_some_iff.mpr ⟨lexemes, hlexemes, hother⟩) rfl
  · exact ofText_congr h (parse?_eq_some_iff.mpr hother)
      (Document.ignoresOrder_ofJson?.rearranged hreordered)
  · subst hvalue
    exact ofText_congr h (parse?_eq_some_iff.mpr hother) (Document.ofJson?_pair root nodes).symm

/-- A constant in an array with the root. Its kind comes last, and a member that nothing asks for
comes twice. -/
def kindLastText : String :=
  "[0,[\x7b\"x\":1,\"line\":7,\"value\":3,\"x\":[],\"kind\":\"const\"\x7d]]"

def kindFirstText : String :=
  "[ 0, [\n \x7b \"kind\": \"const\", \"x\": [],\t\"value\": 3, \"line\":7, \"x\":1 \x7d ] ]\n"

def namedText : String :=
  "\x7b\"root\":0,\"nodes\":"
    ++ "[\x7b\"x\":1,\"line\":7,\"value\":3,\"x\":[],\"kind\":\"const\"\x7d]\x7d"

def kindLastNode : Json :=
  ofMembers [("x", .ofNat 1), ("line", .ofNat 7), ("value", .ofNat 3), ("x", .array []),
    ("kind", .ofText "const")]

def kindFirstNode : Json :=
  ofMembers [("kind", .ofText "const"), ("x", .array []), ("value", .ofNat 3), ("line", .ofNat 7),
    ("x", .ofNat 1)]

theorem ofText_rearranged_constant :
    Json.parse? kindLastText.toList = some (.array [.ofNat 0, .array [kindLastNode]]) ∧
    ofText ("\n" ++ kindLastText) = ofText kindLastText ∧
    ofText kindFirstText = ofText kindLastText ∧
    ofText namedText = ofText kindLastText ∧
    ofText kindLastText = .ok ⟨#[.leaf (.expression (.constant 3)) 7], some 0⟩ := by
  have hlast : Json.parse? kindLastText.toList =
      some (.array [.ofNat 0, .array [kindLastNode]]) := parse?_of_tokens (by decide +kernel)
  have hfirst : Json.parse? kindFirstText.toList =
      some (.array [.ofNat 0, .array [kindFirstNode]]) := parse?_of_tokens (by decide +kernel)
  have hnamed : Json.parse? namedText.toList =
      some (ofMembers [("root", .ofNat 0), ("nodes", .array [kindLastNode])]) :=
    parse?_of_tokens (by decide +kernel)
  obtain ⟨⟨lexemes, -, hspaced, hblanks⟩, horder, hpair⟩ := ofText_rearranged hlast
  have hnode : Reorders kindLastNode kindFirstNode := .members (List.reverse_perm _).symm
  refine ⟨hlast, hblanks _ ?_, horder _ _ ?_ (parse?_eq_some_iff.mp hfirst),
    hpair _ _ _ rfl (parse?_eq_some_iff.mp hnamed), ?_⟩
  · rw [String.toList_append]
    exact .blank rfl hspaced
  · exact .single (.item [.ofNat 0] [] (.item [] [] hnode))
  · exact ofText_eq_ok rfl (by decide +kernel)

end Tree

end ScopeCheck
