import TdsWasm.HostMock
import TdsWasm.LibJsonLine

/-! What is read of the directives that a task text was printed with. Each comes back with its name and its
arguments, in order, whatever stands around them, as long as the JSON library reads back the numbers in them. The
arguments may not be nested deeper than the reader goes: such arguments are read as an empty object. -/

set_option autoImplicit false

namespace TdsWasm

/-! ### Task texts -/

/-- White space that ends no line. -/
def Blanks (s : String) : Prop := ∀ c ∈ s.toList, Text.isWhitespace c = true ∧ c ≠ '\n'

theorem blanks_iff (s : String) : Blanks s ↔ (s.toList.all fun c => Text.isWhitespace c && c != '\n') = true := by
  simp only [Blanks, List.all_eq_true, Bool.and_eq_true, bne_iff_ne]

instance (s : String) : Decidable (Blanks s) := decidable_of_iff _ (blanks_iff s).symm

/-- A tool and its arguments, as a line can ask for them. -/
structure Directive where
  name : String
  input : JsonValue
  named : name ≠ ""
  plain : ∀ c ∈ name.toList, Text.isWhitespace c = false

namespace Directive

/-- The arguments on one line. -/
def printed (directive : Directive) : String := String.ofList (Json.Text.write directive.input.toJson)

/-- The arguments as they are read, numbers apart: nesting at the limit of the reader makes them unparsable. -/
def readBack (directive : Directive) : JsonValue :=
  if directive.input.toJson.depth < Decode.recursionLimit then directive.input else (Json.obj []).toValue

end Directive

/-- A line of a task text: a directive with white space around it and before its arguments, or a line that is none. -/
inductive TaskLine where
  | directive (asked : Directive) (before gap after : String) (hbefore : Blanks before) (hgap : Blanks gap)
      (hne : gap ≠ "") (hafter : Blanks after)
  | other (line : String) (hline : '\n' ∉ line.toList) (hother : ¬ "!tool ".toList <+: (Text.trim line).toList)

namespace TaskLine

def text : TaskLine → String
  | directive asked before gap after .. => before ++ "!tool " ++ asked.name ++ gap ++ asked.printed ++ after
  | other line .. => line

/-- The directive of a line, as it is read. -/
def readBack : TaskLine → Option (String × JsonValue)
  | directive asked .. => some (asked.name, asked.readBack)
  | other .. => none

/-- All numbers in the arguments of a directive are of this kind. -/
def Numbers (kind : Numeral → Prop) : TaskLine → Prop
  | directive asked .. => asked.input.toJson.Numbers kind
  | other .. => True

end TaskLine

inductive LineEnd where
  | lf
  | crlf

def LineEnd.text : LineEnd → String
  | lf => "\n"
  | crlf => "\r\n"

/-- Lines with their endings, and a last line without one. -/
def taskText (last : TaskLine) : List (TaskLine × LineEnd) → String
  | [] => last.text
  | (line, ending) :: rest => line.text ++ ending.text ++ taskText last rest

/-! ### One line -/

variable {codec : JsonCodec}

namespace Directive

variable (directive : Directive) {before gap after : String}

theorem name_solid : Text.Solid directive.name.toList := by
  apply Text.solid_of_plain _ directive.plain
  intro hnil
  apply directive.named
  rw [← String.toList_inj, hnil]
  rfl

theorem printed_solid : Text.Solid directive.printed.toList := by
  rw [printed, String.toList_ofList]
  exact Json.Text.write_solid _

/-- What a reader of documents makes of the printed arguments. -/
theorem read_printed (hcompact : codec.WritesCompact) (hnumbers : directive.input.toJson.Numbers codec.rereads) :
    (match codec.fromSlice "Value" Decode.value (Text.utf8 directive.printed) with
      | .ok input => input
      | .error _ => (Json.obj []).toValue) = directive.readBack := by
  rw [printed, ← hcompact, readBack]
  by_cases hdepth : directive.input.toJson.depth < Decode.recursionLimit
  · have hread := Decode.value_toJson (Nat.le_sub_one_of_lt hdepth)
    rw [if_pos hdepth, codec.fromSlice_toVec hnumbers hread]
  · have hdeep : ¬ directive.input.toJson.depth ≤ Decode.recursionLimit - 1 := by
      unfold Decode.recursionLimit at hdepth ⊢
      omega
    have hread : Decode.value (Decode.recursionLimit - 1) directive.input.toJson = none := if_neg hdeep
    rw [if_neg hdepth, codec.fromSlice_toVec_none hnumbers hread]

/-- A printed line is trimmed to the directive itself. -/
theorem trim_line (hbefore : Blanks before) (hafter : Blanks after) :
    Text.trim (before ++ "!tool " ++ directive.name ++ gap ++ directive.printed ++ after) =
      "!tool " ++ (directive.name ++ gap ++ directive.printed) := by
  have hmark : Text.Solid "!tool".toList := Text.solid_of_plain (List.cons_ne_nil _ _) (Text.plain_of_all rfl)
  have hsolid : Text.Solid ("!tool " ++ (directive.name ++ gap ++ directive.printed)).toList := by
    have happend := hmark.append directive.printed_solid (' ' :: (directive.name ++ gap).toList)
    simpa using happend
  have hline : before ++ "!tool " ++ directive.name ++ gap ++ directive.printed ++ after =
      before ++ ("!tool " ++ (directive.name ++ gap ++ directive.printed)) ++ after := by
    simp only [String.append_assoc]
  rw [hline]
  exact Text.trim_padded hsolid (fun c hc => (hbefore c hc).1) fun c hc => (hafter c hc).1

theorem parseDirective_printed (hcompact : codec.WritesCompact)
    (hnumbers : directive.input.toJson.Numbers codec.rereads) (hbefore : Blanks before) (hgap : Blanks gap)
    (hne : gap ≠ "") (hafter : Blanks after) :
    MockProvider.parseDirective codec
        (before ++ "!tool " ++ directive.name ++ gap ++ directive.printed ++ after) =
      some (directive.name, directive.readBack) := by
  obtain ⟨args, hsplit, hargs⟩ := Text.splitOnceWhitespace_append directive.plain (fun c hc => (hgap c hc).1) hne
    directive.printed_solid
  have hname : Text.trim directive.name = directive.name := Text.trim_solid directive.name_solid
  have hread := directive.read_printed hcompact hnumbers
  rw [MockProvider.parseDirective, directive.trim_line hbefore hafter, Text.stripPrefix_append, Option.bind_eq_bind,
    Option.bind_some, hsplit]
  simp only [hname, hargs]
  exact congrArg (fun input => some (directive.name, input)) hread

end Directive

namespace TaskLine

/-- A library that reads back all numbers reads back those of any line. -/
theorem numbers_of_forall {kind : Numeral → Prop} (h : ∀ n, kind n) (line : TaskLine) : line.Numbers kind := by
  cases line with
  | directive asked => exact Json.numbers_of_forall h _
  | other line => exact trivial

theorem text_line (line : TaskLine) : '\n' ∉ line.text.toList := by
  have hblanks : ∀ {s}, Blanks s → '\n' ∉ s.toList := fun h hmem => (h _ hmem).2 rfl
  cases line with
  | other line hline hother => exact hline
  | directive asked before gap after hbefore hgap hne hafter =>
      have hname : '\n' ∉ asked.name.toList := fun hmem => absurd (asked.plain _ hmem) (by decide)
      have hprinted : '\n' ∉ asked.printed.toList := by
        rw [Directive.printed, String.toList_ofList]
        exact Json.Text.write_line _
      simp [text, hblanks hbefore, hblanks hgap, hblanks hafter, hname, hprinted]

/-- Each line is read as the directive that it was printed from, or as none. -/
theorem parseDirective_text (hcompact : codec.WritesCompact) (line : TaskLine) (hnumbers : line.Numbers codec.rereads) :
    MockProvider.parseDirective codec line.text = line.readBack := by
  cases line with
  | directive asked before gap after hbefore hgap hne hafter =>
      exact asked.parseDirective_printed hcompact hnumbers hbefore hgap hne hafter
  | other line hline hother =>
      have hstrip : Text.stripPrefix "!tool " (Text.trim line) = none := by
        rw [Text.stripPrefix, if_neg (by rwa [List.isPrefixOf_iff_prefix])]
      rw [text, MockProvider.parseDirective, hstrip]
      rfl

/-- A line feed ends a line, with or without a carriage return before it. -/
theorem parseDirectives_line (hcompact : codec.WritesCompact) (line : TaskLine)
    (hnumbers : line.Numbers codec.rereads) :
    MockProvider.parseDirectives codec line.text = line.readBack.toList ∧
      MockProvider.parseDirectives codec (line.text ++ "\r") = line.readBack.toList := by
  have hreturn : '\n' ∉ (line.text ++ "\r").toList := by
    have htext := line.text_line
    simp [htext]
  have htrim : Text.trim (line.text ++ "\r") = Text.trim line.text := by
    have happend := Text.trim_append_whitespace line.text.toList (by decide : Text.isWhitespace '\r' = true)
    rwa [String.ofList_append, String.ofList_toList] at happend
  unfold MockProvider.parseDirectives
  rw [Text.filterMap_lines_single MockProvider.parseDirective_trim MockProvider.parseDirective_empty line.text_line,
    Text.filterMap_lines_single MockProvider.parseDirective_trim MockProvider.parseDirective_empty hreturn,
    MockProvider.parseDirective_trim _ _ htrim, parseDirective_text hcompact line hnumbers]
  exact ⟨rfl, rfl⟩

end TaskLine

/-! ### Whole texts -/

/-- The directives of a task text are read in order, each from its own line, when the library reads back the numbers
that it has written. -/
theorem directives_read_back (hcompact : codec.WritesCompact) (lines : List (TaskLine × LineEnd))
    (last : TaskLine) (hnumbers : ∀ line ∈ lines.map Prod.fst ++ [last], line.Numbers codec.rereads) :
    MockProvider.parseDirectives codec (taskText last lines) =
      (lines.map Prod.fst ++ [last]).filterMap TaskLine.readBack := by
  induction lines with
  | nil =>
      rw [taskText, (last.parseDirectives_line hcompact (hnumbers last (List.mem_singleton_self _))).1]
      cases hlast : last.readBack <;> simp [hlast]
  | cons head rest ih =>
      obtain ⟨line, ending⟩ := head
      obtain ⟨hline, hlater⟩ := List.forall_mem_cons.mp hnumbers
      have hhead : (line :: (rest.map Prod.fst ++ [last])).filterMap TaskLine.readBack =
          line.readBack.toList ++ (rest.map Prod.fst ++ [last]).filterMap TaskLine.readBack := by
        cases hline : line.readBack with
        | none => exact List.filterMap_cons_none hline
        | some found => exact List.filterMap_cons_some hline
      have hrest : MockProvider.parseDirectives codec (taskText last ((line, ending) :: rest)) =
          line.readBack.toList ++ MockProvider.parseDirectives codec (taskText last rest) := by
        cases ending with
        | lf =>
            rw [taskText, LineEnd.text, MockProvider.parseDirectives_append,
              (line.parseDirectives_line hcompact hline).1]
        | crlf =>
            have hend : line.text ++ "\r\n" ++ taskText last rest =
                line.text ++ "\r" ++ "\n" ++ taskText last rest := by
              simp [← String.toList_inj]
            rw [taskText, LineEnd.text, hend, MockProvider.parseDirectives_append,
              (line.parseDirectives_line hcompact hline).2]
      rw [hrest, ih hlater, List.map_cons, List.cons_append, hhead]

/-- A line that asks for nothing, a lookup and a call without arguments to speak of. -/
theorem directives_read_back_lookup : MockProvider.parseDirectives .compact
    (taskText (.directive ⟨"now", Json.null.toValue, by decide, Text.plain_of_all rfl⟩ "" "  " "" (by decide) (by decide)
        (by decide) (by decide))
      [(.other "Look it up, without !tool now." (by decide) (by decide +kernel), .crlf),
        (.directive ⟨"kv_get", (Json.obj [("key", .str "!tool now")]).toValue, by decide, Text.plain_of_all rfl⟩
          "\t" " " " " (by decide) (by decide) (by decide) (by decide), .lf)]) =
      [("kv_get", (Json.obj [("key", .str "!tool now")]).toValue), ("now", Json.null.toValue)] := by
  have hcompact : JsonCodec.compact.WritesCompact := JsonCodec.writesCompact_compact
  rw [directives_read_back hcompact _ _ fun line _ => line.numbers_of_forall fun _ => trivial]
  rfl

/-- Arrays in arrays, this many. -/
def nestedArrays : Nat → Json
  | 0 => .null
  | levels + 1 => .arr [nestedArrays levels]

/-- A directive whose arguments are nested as deep as the limit of the reader. -/
def deepDirective : Directive := ⟨"now", (nestedArrays 128).toValue, by decide, Text.plain_of_all rfl⟩

theorem deepDirective_lost : MockProvider.parseDirectives .compact ("!tool now " ++ deepDirective.printed) =
      [("now", (Json.obj []).toValue)] ∧ deepDirective.input ≠ (Json.obj []).toValue := by
  have hdepth : deepDirective.input.toJson.depth = 128 := by decide +kernel
  have hlost : deepDirective.readBack = (Json.obj []).toValue := by
    rw [Directive.readBack, if_neg (by rw [hdepth]; decide)]
  have hcompact : JsonCodec.compact.WritesCompact := JsonCodec.writesCompact_compact
  have hread := (TaskLine.directive deepDirective "" " " "" (by decide) (by decide) (by decide)
    (by decide)).parseDirectives_line hcompact (Json.numbers_of_forall (fun _ => trivial) _)
  have hline : "" ++ "!tool " ++ deepDirective.name ++ " " ++ deepDirective.printed ++ "" =
      "!tool now " ++ deepDirective.printed := by
    simp [deepDirective]
  refine ⟨?_, fun heq => ?_⟩
  · rw [← hline]
    refine hread.1.trans ?_
    rw [TaskLine.readBack, hlost]
    rfl
  · rw [heq] at hdepth
    exact absurd hdepth (by decide)

end TdsWasm
