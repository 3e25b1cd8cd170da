import TensorGraph.Proofs.Bundle.Directives
import TensorGraph.Proofs.Bundle.Packing
import TensorGraph.Proofs.Graph.Naming

/-!
Headers, read back. A header defines one macro for each thing that it tells, and gives back every
number, unless two placeholders get one identifier or one that is taken. The function's name stands
in a comment, so only a line break in it lets it define anything.
-/

namespace TensorGraph

namespace Bundle

variable {b : Bundle}

/-- The macro about `subject`. -/
def macroName (b : Bundle) (subject : String) : String :=
  b.network.map Char.toUpper ++ ("_" ++ subject)

def guardName (b : Bundle) : String := "_TERN_BUNDLE_" ++ b.network.map Char.toUpper ++ "_H"

/-- The subjects of macros that every header defines. -/
def reserved : List String :=
  ["CONSTANT_MEM_SIZE", "MUTABLE_MEM_SIZE", "ACTIVATIONS_MEM_SIZE", "MEM_ALIGN"]

/-- What a header tells whatever the plan: the sizes of the regions and the alignment. -/
def layout (b : Bundle) : List (String × Nat) :=
  reserved.zip [b.constants.size, b.placeholders.size, b.activations.size, b.alignment]

/-- The placeholders' offsets under the names that they get. -/
def places (b : Bundle) : List (String × Nat) :=
  List.zipWith (fun p offset => (identifier p.name, offset)) b.plan.placeholders
    b.placeholders.offsets

/-- What a header defines, less what the function's name brings in. -/
def macros (b : Bundle) : List (String × String) :=
  (b.guardName, "") :: (b.layout ++ b.places).map fun e => (b.macroName e.1, e.2.repr)

/-- What the function's name defines: it stands in a comment, which ends with the line. -/
def injected (b : Bundle) : List (String × String) :=
  ((b.plan.name.toList ++ "').".toList).splitOnP isBreak).tail.filterMap definition?

theorem isWord_toUpper {c : Char} (word : isWord c = true) : isWord c.toUpper = true := by
  unfold isWord Char.isAlphanum Char.isAlpha Char.isUpper Char.isLower at word ⊢
  unfold Char.toUpper
  grind [Char.isDigit]

theorem toList_identifier (name : String) : (identifier name).toList =
    name.toList.map fun c => if c.isAlphanum then c else '_' := String.toList_map

theorem identifier_of_words {name : String} (words : Words name.toList) :
    identifier name = name := by
  refine String.toList_inj.1 ((toList_identifier name).trans ?_)
  refine (List.map_congr_left fun c member => ?_).trans (List.map_id _)
  split
  next => rfl
  next other => simpa [isWord, other, eq_comm] using words c member

theorem words_identifier (name : String) : Words (identifier name).toList := by
  intro c member
  rw [toList_identifier] at member
  obtain ⟨d, -, rfl⟩ := List.mem_map.1 member
  split
  next alphanumeric => simp [isWord, alphanumeric]
  next => rfl

theorem network_spec {network : String} (valid : isNetworkName network = true) :
    ∃ c rest, network.toList = c :: rest ∧ (c.isAlpha = true ∨ c = '_') ∧ Words (c :: rest) := by
  unfold isNetworkName at valid
  split at valid
  next c rest text =>
    obtain ⟨first, words⟩ : (c.isAlpha = true ∨ c = '_') ∧ ∀ d ∈ rest, isWord d = true := by
      simpa [isWord] using valid
    refine ⟨c, rest, text, first, List.forall_mem_cons.2 ⟨?_, words⟩⟩
    rcases first with letter | rfl
    · simp [isWord, Char.isAlphanum, letter]
    · rfl
  next => cases valid

theorem isDigit_toUpper {c : Char} (letter : c.isAlpha = true) : c.toUpper.isDigit = false := by
  unfold Char.isAlpha Char.isUpper Char.isLower at letter
  unfold Char.toUpper
  grind [Char.isDigit]

theorem isMacroName_stem {network : String} (valid : isNetworkName network = true) :
    IsMacroName (network.map Char.toUpper) := by
  obtain ⟨c, rest, text, first, words⟩ := network_spec valid
  refine ⟨fun d member => ?_, ?_⟩
  · rw [String.toList_map, text] at member
    obtain ⟨d, present, rfl⟩ := List.mem_map.1 member
    exact isWord_toUpper (words d present)
  · rw [String.toList_map, text]
    rcases first with letter | rfl
    · simp [isDigit_toUpper letter]
    · rfl

theorem isMacroName_macroName (valid : isNetworkName b.network = true) {subject : String}
    (words : Words subject.toList) : IsMacroName (b.macroName subject) := by
  refine (isMacroName_stem valid).append ?_
  rw [String.toList_append, words_append]
  exact ⟨by decide, words⟩

theorem isMacroName_guardName (valid : isNetworkName b.network = true) :
    IsMacroName b.guardName := by
  have start : IsMacroName "_TERN_BUNDLE_" := ⟨by decide, by decide⟩
  exact (start.append (isMacroName_stem valid).words).append (by decide)

theorem words_layout (b : Bundle) : ∀ e ∈ b.layout, Words e.1.toList := by
  intro e member
  have words : ∀ subject ∈ reserved, Words subject.toList := by decide
  exact words e.1 (List.of_mem_zip member).1

theorem words_places (b : Bundle) : ∀ e ∈ b.places, Words e.1.toList := by
  intro e member
  rw [places, ← List.map_uncurry_zip_eq_zipWith] at member
  obtain ⟨⟨p, offset⟩, -, rfl⟩ := List.mem_map.1 member
  exact words_identifier p.name

theorem toString_text (text : String) : toString text = text := rfl

theorem header_eq (b : Bundle) : b.header = lines (
    ["// Bundle for network '" ++ b.network ++ "' (function '" ++ b.plan.name ++ "').",
      "#ifndef " ++ b.guardName, "#define " ++ b.guardName, "", "#include <stdint.h>", ""] ++
    b.layout.map (fun e => define (b.macroName e.1) e.2) ++
    ["", "// Placeholder offsets in mutableWeight."] ++
    b.places.map (fun e => define (b.macroName e.1) e.2) ++
    ["", "#ifdef __cplusplus", "extern \"C\" \x7b", "#endif",
      "int " ++ b.network ++ "(uint8_t *constantWeight, uint8_t *mutableWeight, " ++
        "uint8_t *activations);",
      "#ifdef __cplusplus", "\x7d", "#endif", "", "#endif"]) := by
  simp only [header, toString_text, guardName, macroName, layout, reserved, places,
    List.zip_cons_cons, List.zip_nil_left, List.map_cons, List.map_nil, List.map_zipWith,
    List.cons_append, List.nil_append, String.append_assoc]
  rfl

section

variable (valid : isNetworkName b.network = true)

include valid

theorem unbroken_network : Unbroken b.network.toList := by
  obtain ⟨c, rest, text, -, words⟩ := network_spec valid
  rw [text]
  exact unbroken_of_words words

/-- The network's name keeps to the first line, which is a comment, and the function's may not. -/
theorem definitions_banner :
    definitions ("// Bundle for network '" ++ b.network ++ "' (function '" ++ b.plan.name ++ "').") =
      b.injected := by
  rw [String.append_assoc, definitions_comment]
  · simp [injected]
  · simp only [String.toList_append, unbroken_append]
    exact ⟨⟨by decide, unbroken_network valid⟩, by decide⟩
  · intro rest
    simp only [String.toList_append, List.append_assoc]
    exact definition?_text rfl (by decide) _

theorem definitions_condition : definitions ("#ifndef " ++ b.guardName) = [] := by
  apply definitions_other
  · rw [String.toList_append, unbroken_append]
    exact ⟨by decide, unbroken_of_words (isMacroName_guardName valid).words⟩
  · rw [String.toList_append]
    exact definition?_directive rfl (by decide) _

theorem definitions_entry :
    definitions ("int " ++ b.network ++
      "(uint8_t *constantWeight, uint8_t *mutableWeight, " ++ "uint8_t *activations);") = [] := by
  apply definitions_other
  · simp only [String.toList_append, unbroken_append]
    exact ⟨⟨⟨by decide, unbroken_network valid⟩, by decide⟩, by decide⟩
  · simp only [String.toList_append, List.append_assoc]
    exact definition?_text rfl (by decide) _

theorem definitions_numbers {numbers : List (String × Nat)}
    (words : ∀ e ∈ numbers, Words e.1.toList) :
    (numbers.map fun e => define (b.macroName e.1) e.2).flatMap definitions =
      numbers.map fun e => (b.macroName e.1, e.2.repr) := by
  rw [List.flatMap_map, List.map_eq_flatMap]
  exact List.flatMap_congr fun e member =>
    definitions_define (isMacroName_macroName valid (words e member)) e.2

/-- A header defines its macros, and before them what the function's name brings in. -/
theorem definitions_header : definitions b.header = b.injected ++ b.macros := by
  have plain : ∀ line ∈ ["", "#include <stdint.h>", "// Placeholder offsets in mutableWeight.",
      "#ifdef __cplusplus", "extern \"C\" \x7b", "\x7d", "#endif"], definitions line = [] := by
    decide
  rw [header_eq, definitions_lines]
  simp only [List.flatMap_append, List.flatMap_cons, List.flatMap_nil]
  rw [definitions_banner valid, definitions_condition valid,
    definitions_guard (isMacroName_guardName valid), definitions_entry valid,
    definitions_numbers valid b.words_layout, definitions_numbers valid b.words_places]
  simp [plain, macros]

end

/-- The names that a header should define. -/
def names (b : Bundle) : List String :=
  b.guardName :: (b.layout ++ b.places).map fun e => b.macroName e.1

/-- A header that defines its guard, the sizes, the alignment and an offset for each placeholder,
each of them once and nothing else, and that gives back the numbers. -/
structure Unambiguous (b : Bundle) : Prop where
  once : ((definitions b.header).map (·.1)).Nodup
  only : ((definitions b.header).map (·.1)).Perm b.names
  read : ∀ e ∈ b.layout ++ b.places, number? b.header (b.macroName e.1) = some e.2

theorem macros_names (b : Bundle) : b.macros.map (·.1) = b.names := by
  rw [macros, names, List.map_cons, List.map_map]
  rfl

theorem macroName_injective (b : Bundle) : Function.Injective b.macroName := by
  intro subject other same
  rwa [macroName, macroName, String.append_right_inj, String.append_right_inj] at same

/-- The guard ends in `H`. -/
theorem macroName_ne_guardName (b : Bundle) {subject : String} {c : Char}
    (last : subject.toList.getLast? = some c) (other : c ≠ 'H') :
    b.macroName subject ≠ b.guardName := by
  intro same
  have ends := congrArg (fun text => text.toList.getLast?) same
  simp only [macroName, guardName, String.toList_append, List.getLast?_append, last] at ends
  exact other (Option.some.inj ends)

theorem last_of_reserved {subject : String} (fixed : subject ∈ reserved) :
    ∃ c, subject.toList.getLast? = some c ∧ c ≠ 'H' := by
  obtain rfl | rfl | rfl | rfl : subject = "CONSTANT_MEM_SIZE" ∨ subject = "MUTABLE_MEM_SIZE" ∨
      subject = "ACTIVATIONS_MEM_SIZE" ∨ subject = "MEM_ALIGN" := by simpa [reserved] using fixed
  all_goals exact ⟨_, rfl, by decide⟩

/-- The names that are fixed differ, so a clash is about placeholders. -/
theorem names_nodup_iff (b : Bundle) : b.names.Nodup ↔
    (b.places.map (·.1)).Nodup ∧
      ∀ subject ∈ b.places.map (·.1), subject ∉ reserved ∧ b.macroName subject ≠ b.guardName := by
  have subjects : b.names =
      b.guardName :: (reserved ++ b.places.map (·.1)).map b.macroName := by
    rw [names, List.map_append, List.map_append, List.map_map]
    rfl
  have fixed : reserved.Nodup := by decide
  rw [subjects, List.nodup_cons, List.nodup_map_iff b.macroName_injective, List.nodup_append,
    List.mem_map]
  constructor
  · rintro ⟨unguarded, -, distinct, apart⟩
    exact ⟨distinct, fun subject member => ⟨fun taken => apart subject taken subject member rfl,
      fun same => unguarded ⟨subject, List.mem_append_right _ member, same⟩⟩⟩
  · rintro ⟨distinct, free⟩
    refine ⟨?_, fixed, distinct, ?_⟩
    · rintro ⟨subject, member, same⟩
      rcases List.mem_append.1 member with taken | own
      · obtain ⟨c, last, other⟩ := last_of_reserved taken
        exact b.macroName_ne_guardName last other same
      · exact (free subject own).2 same
    · rintro subject taken other own rfl
      exact (free subject own).1 taken

/-- A header is read back exactly when the function's name defines nothing and the identifiers of
placeholders differ from each other and from the names that are taken. -/
theorem unambiguous_iff (valid : isNetworkName b.network = true) :
    b.Unambiguous ↔ b.injected = [] ∧ b.names.Nodup := by
  have defined := definitions_header valid
  have apart : (definitions b.header).map (·.1) = b.injected.map (·.1) ++ b.names := by
    rw [defined, List.map_append, macros_names]
  constructor
  · rintro ⟨once, only, -⟩
    rw [apart] at once only
    have length := only.length_eq
    rw [List.length_append, List.length_map] at length
    exact ⟨List.eq_nil_of_length_eq_zero (by omega), (List.nodup_append.1 once).2.1⟩
  · rintro ⟨nothing, distinct⟩
    rw [nothing, List.map_nil, List.nil_append] at apart
    rw [nothing, List.nil_append] at defined
    refine ⟨apart ▸ distinct, apart ▸ .refl _, fun e member => ?_⟩
    have here : (b.macroName e.1, e.2.repr) ∈ b.macros :=
      List.mem_cons_of_mem _ (List.mem_map_of_mem member)
    rw [number?, defined, Json.filter_of_nodup (macros_names b ▸ distinct) here]
    exact numeral?_repr e.2

theorem injected_eq_nil (unbroken : Unbroken b.plan.name.toList) : b.injected = [] := by
  rw [injected, List.splitOnP_eq_singleton]
  · rfl
  · exact unbroken_append.2 ⟨unbroken, by decide⟩

theorem places_ofPlan (plan : Plan) (network : String) (alignment : Nat) :
    (ofPlan plan network alignment).places.map (·.1) =
      plan.placeholders.map (identifier ·.name) := by
  have length : plan.placeholders.length ≤
      (ofPlan plan network alignment).placeholders.offsets.length := by simp [ofPlan]
  rw [places, ← List.map_uncurry_zip_eq_zipWith, List.map_map]
  conv_rhs => rw [← List.map_fst_zip length, List.map_map]
  rfl

end Bundle

theorem Plan.names_distinct {w : Workspace} (reached : w.Reachable) {f : Function}
    (member : f ∈ w.module.functions) {plan : Plan} (lowered : Plan.ofFunction f = .ok plan) :
    (plan.placeholders.map (·.name)).Nodup := by
  obtain ⟨-, lawful⟩ := reached.lawful.functions f member
  have declared : ∀ p ∈ plan.placeholders, p ∈ w.module.placeholders := by
    intro p touched
    obtain ⟨n, present, named⟩ := Plan.exists_node lowered touched
    obtain ⟨i, found⟩ := List.mem_iff_getElem?.1 present
    exact (lawful.nodes i n found).declared p named
  refine List.pairwise_map.2 ((Placeholder.byFirstUse_distinct _).order.imp_of_mem
    fun left right less same => ?_)
  obtain rfl := List.inj_on_of_nodup_map reached.names_distinct (declared _ left)
    (declared _ right) same
  exact Nat.lt_irrefl _ less

open Workspace

/-- The lines of a header that define macros are those for the include guard, the sizes of the
three regions, the alignment and the offset of each placeholder, and before them those of further
lines in the function's name. A name on one line brings in nothing, and then the header is read back
exactly when the identifiers of placeholders differ from each other, from the names that are
reserved and, with the network's name, from the guard. The placeholders' own names differ. -/
theorem header_unambiguous_iff (plan : Plan) {network : String} (alignment : Nat)
    (valid : Bundle.isNetworkName network = true) :
    let b := Bundle.ofPlan plan network alignment
    Bundle.definitions b.header = b.injected ++ b.macros ∧
    (Bundle.Unbroken plan.name.toList →
      b.injected = [] ∧
      (b.Unambiguous ↔ (plan.placeholders.map (Bundle.identifier ·.name)).Nodup ∧
        ∀ p ∈ plan.placeholders, Bundle.identifier p.name ∉ Bundle.reserved ∧
          b.macroName (Bundle.identifier p.name) ≠ b.guardName)) ∧
    ∀ (w : Workspace) (f : Function), w.Reachable → f ∈ w.module.functions →
      Plan.ofFunction f = .ok plan → (plan.placeholders.map (·.name)).Nodup := by
  intro b
  have named : Bundle.isNetworkName b.network = true := valid
  refine ⟨Bundle.definitions_header named, fun unbroken => ?_,
    fun w f reached member => Plan.names_distinct reached member⟩
  have nothing : b.injected = [] := Bundle.injected_eq_nil unbroken
  have readable := Bundle.unambiguous_iff named
  rw [b.names_nodup_iff, Bundle.places_ofPlan, List.forall_mem_map] at readable
  exact ⟨nothing, readable.trans (and_iff_right nothing)⟩

theorem header_unambiguous_iff_shift :
    ∃ plan, Plan.ofFunction Shift.function = .ok plan ∧
      (Bundle.ofPlan plan "net" 64).Unambiguous := by
  obtain ⟨plan, made, seen⟩ := Plan.read_off (f := Shift.function)
    (fun plan => (plan.name, plan.placeholders)) ("shift", [Shift.source, Shift.target]) (by decide)
  obtain ⟨name, placeholders⟩ := Prod.mk.inj seen
  have valid : Bundle.isNetworkName "net" = true := by decide
  have unbroken : Bundle.Unbroken plan.name.toList := by
    rw [name]
    decide
  obtain ⟨-, readable, -⟩ := header_unambiguous_iff plan 64 valid
  obtain ⟨-, readable⟩ := readable unbroken
  have x : Bundle.identifier Shift.source.name = "x" := Bundle.identifier_of_words (by decide)
  have y : Bundle.identifier Shift.target.name = "y" := Bundle.identifier_of_words (by decide)
  refine ⟨plan, made, readable.2 ⟨?_, ?_⟩⟩
  · rw [placeholders, List.map_cons, List.map_cons, x, y]
    decide
  · rw [placeholders, List.forall_mem_cons, List.forall_mem_singleton, x, y]
    exact ⟨⟨by decide, Bundle.macroName_ne_guardName _ (c := 'x') rfl (by decide)⟩, by decide,
      Bundle.macroName_ne_guardName _ (c := 'y') rfl (by decide)⟩

-- A module whose first function touches two placeholders that get one identifier. The name of
-- its second function has two lines.

namespace Workspace.Twins

def dashed : Placeholder := ⟨⟨⟨0⟩, 0⟩, "a-b", ⟨.float, .vector 2⟩, false⟩

def dotted : Placeholder := ⟨⟨⟨0⟩, 1⟩, "a.b", ⟨.float, .vector 2⟩, false⟩

def workspace : Workspace :=
  [Action.declare .float (.vector 2) "a-b" false, .declare .float (.vector 2) "a.b" false,
    .create "copy", .build "copy" (.input dashed), .build "copy" (.save "saved" 0 dotted),
    .create "g\n#define LIMIT 7 //", .build "g\n#define LIMIT 7 //" (.input dashed)].foldl perform
    ⟨.empty, .empty ⟨0⟩⟩

def copy : Function := workspace.module.functions.headD (.empty "" ⟨0⟩)

def twoLined : Function := workspace.module.functions.getD 1 (.empty "" ⟨0⟩)

theorem reachable : workspace.Reachable :=
  (Reachable.start _ _).run ⟨trivial, trivial, trivial, fun _ => by decide, fun _ => by decide,
    trivial, fun _ => by decide, trivial⟩

end Workspace.Twins

/-- In the first header a macro is defined for both placeholders, and in the second one that no
one asked for. -/
theorem header_clashes :
    Twins.workspace.Reachable ∧ Twins.copy ∈ Twins.workspace.module.functions ∧
    Twins.twoLined ∈ Twins.workspace.module.functions ∧
    (∃ plan, Plan.ofFunction Twins.copy = .ok plan ∧
      plan.placeholders = [Twins.dashed, Twins.dotted] ∧
      ¬ (Bundle.ofPlan plan "net" 64).Unambiguous) ∧
    ∃ plan, Plan.ofFunction Twins.twoLined = .ok plan ∧
      plan.placeholders = [Twins.dashed] ∧
      ¬ (Bundle.ofPlan plan "net" 64).Unambiguous := by
  have valid : Bundle.isNetworkName "net" = true := by decide
  refine ⟨Twins.reachable, by decide, by decide, ?_, ?_⟩
  · obtain ⟨plan, made, placeholders⟩ := Plan.read_off (f := Twins.copy) (·.placeholders)
      [Twins.dashed, Twins.dotted] (by decide)
    refine ⟨plan, made, placeholders, fun unambiguous => ?_⟩
    have distinct := ((Bundle.unambiguous_iff valid).1 unambiguous).2
    have same : Bundle.identifier Twins.dashed.name = Bundle.identifier Twins.dotted.name := by
      rw [← String.toList_inj, Bundle.toList_identifier, Bundle.toList_identifier]
      decide
    rw [Bundle.names_nodup_iff, Bundle.places_ofPlan, placeholders, List.map_cons, List.map_cons,
      same] at distinct
    exact absurd distinct.1 (by simp)
  · obtain ⟨plan, made, seen⟩ := Plan.read_off (f := Twins.twoLined)
      (fun plan => (plan.placeholders, plan.name)) ([Twins.dashed], "g\n#define LIMIT 7 //")
      (by decide)
    obtain ⟨placeholders, name⟩ := Prod.mk.inj seen
    refine ⟨plan, made, placeholders, fun unambiguous => ?_⟩
    have nothing := ((Bundle.unambiguous_iff valid).1 unambiguous).1
    change (((plan.name.toList ++ "').".toList).splitOnP Bundle.isBreak).tail.filterMap
      Bundle.definition?) = [] at nothing
    rw [name] at nothing
    exact absurd nothing (by decide)

end TensorGraph
