import DdlBridge.Proofs.Json.Record
import DdlBridge.Proofs.Json.Text
import DdlBridge.Schema.Json

/-!
# Schemas in JSON

The JSON text of a schema is read back as that schema, also if members that have their default are
deleted from it, wherever they stand (`ofJsonText?_leaves`).
-/

namespace DdlBridge

open Json

/-! ### What may be deleted -/

namespace Column

/-- The members that may be missing, and what is read if they are. -/
def jsonDefaults : List (String × Json) :=
  [("length", .null), ("precision", .null), ("scale", .null), ("nullable", .bool true),
   ("primary_key", .bool false), ("unique", .bool false), ("auto_increment", .bool false),
   ("default_value", .null)]

/-- What is left of the object of a column. -/
def Left : Json → Json → Prop := Leaves (fun _ => Eq) jsonDefaults

end Column

namespace Constraint

def jsonDefaults : List (String × Json) :=
  [("name", .null), ("columns", .arr []), ("ref_table", .null), ("ref_columns", .arr []),
   ("on_delete", .null), ("on_update", .null), ("expression", .null)]

def Left : Json → Json → Prop := Leaves (fun _ => Eq) jsonDefaults

end Constraint

namespace Table

def jsonDefaults : List (String × Json) := [("constraints", .arr [])]

/-- What is left of a member of a table. -/
def LeftMember : String → Json → Json → Prop
  | "columns" => LeavesItems Column.Left
  | "constraints" => LeavesItems Constraint.Left
  | _ => Eq

def Left : Json → Json → Prop := Leaves LeftMember jsonDefaults

end Table

namespace Sequence

def jsonDefaults : List (String × Json) :=
  [("min_value", .null), ("max_value", .null), ("cache", .null), ("cycle", .bool false)]

def Left : Json → Json → Prop := Leaves (fun _ => Eq) jsonDefaults

end Sequence

namespace View

def jsonDefaults : List (String × Json) := [("or_replace", .bool false)]

def Left : Json → Json → Prop := Leaves (fun _ => Eq) jsonDefaults

end View

namespace Trigger

def jsonDefaults : List (String × Json) := [("for_each_row", .bool false)]

def Left : Json → Json → Prop := Leaves (fun _ => Eq) jsonDefaults

end Trigger

namespace Schema

def jsonDefaults : List (String × Json) :=
  [("tables", .arr []), ("sequences", .arr []), ("views", .arr []), ("triggers", .arr [])]

def LeftMember : String → Json → Json → Prop
  | "tables" => LeavesItems Table.Left
  | "sequences" => LeavesItems Sequence.Left
  | "views" => LeavesItems View.Left
  | "triggers" => LeavesItems Trigger.Left
  | _ => Eq

def Left : Json → Json → Prop := Leaves LeftMember jsonDefaults

end Schema

/-! ### Values -/

namespace Json

variable {α : Type}

/-- What is left unchanged is read as it was. -/
theorem unchanged {f : Json → Option α} {v : Json} {a : α} (h : f v = some a) :
    ∀ w, v = w → f w = some a :=
  fun _ heq => heq ▸ h

@[simp] theorem ofOption_str_eq_null (a : Option String) : ofOption str a = null ↔ a = none := by
  cases a with
  | none => simp [ofOption]
  | some a => simp [ofOption]

@[simp] theorem ofOption_ofUInt32_eq_null (a : Option UInt32) :
    ofOption ofUInt32 a = null ↔ a = none := by
  cases a with
  | none => simp [ofOption]
  | some a => simp [ofOption, ofUInt32]

@[simp] theorem ofOption_ofInt64_eq_null (a : Option Int64) : ofOption ofInt64 a = null ↔ a = none := by
  cases a with
  | none => simp [ofOption]
  | some a => simp [ofOption, ofInt64]

@[simp] theorem ofList_eq_nil (f : α → Json) (items : List α) :
    Json.ofList f items = arr [] ↔ items = [] := by
  simp [Json.ofList]

theorem uint32?_ofUInt32 (n : UInt32) : uint32? (ofUInt32 n) = some n := by
  have hlt : n.toNat < UInt32.size := n.toNat_lt
  rw [uint32?, ofUInt32, int?, Option.bind_some, if_pos ⟨by omega, by omega⟩, Int.toNat_natCast,
    UInt32.ofNat_toNat]

theorem int64?_ofInt64 (n : Int64) : int64? (ofInt64 n) = some n := by
  rw [int64?, ofInt64, int?, Option.bind_some, if_pos ⟨n.le_toInt, n.toInt_le⟩, Int64.ofInt_toInt]

theorem option?_ofOption {enc : α → Json} {dec : Json → Option α} (hdec : ∀ a, dec (enc a) = some a)
    (hnull : ∀ a, enc a ≠ null) (a : Option α) : option? dec (ofOption enc a) = some a := by
  cases a with
  | none => rfl
  | some a =>
    have hsome : option? dec (enc a) = (dec (enc a)).map some := by
      unfold option?
      split
      case h_1 heq => exact absurd heq (hnull a)
      case h_2 => rfl
    rw [ofOption, hsome, hdec]
    rfl

theorem optionString (a : Option String) : option? string? (ofOption str a) = some a := by
  refine option?_ofOption (fun _ => ?_) (fun _ => ?_) a
  · rfl
  · simp

theorem optionUInt32 (a : Option UInt32) : option? uint32? (ofOption ofUInt32 a) = some a :=
  option?_ofOption uint32?_ofUInt32 (fun _ => by simp [ofUInt32]) a

theorem optionInt64 (a : Option Int64) : option? int64? (ofOption ofInt64 a) = some a :=
  option?_ofOption int64?_ofInt64 (fun _ => by simp [ofInt64]) a

/-- A list is read back if every item is read from what is left of it. -/
theorem list?_ofList {enc : α → Json} {dec : Json → Option α} {left : Json → Json → Prop}
    (hdec : ∀ a w, left (enc a) w → dec w = some a) (items : List α) :
    ∀ w, LeavesItems left (Json.ofList enc items) w → list? dec w = some items := by
  rintro _ ⟨h⟩
  show List.mapM dec _ = some items
  rw [List.forall₂_map_left_iff] at h
  induction h with
  | nil => rfl
  | cons hitem _ ih =>
    rw [List.mapM_cons, hdec _ _ hitem, ih]
    rfl

theorem listSelf {enc : α → Json} {dec : Json → Option α} (hdec : ∀ a, dec (enc a) = some a)
    (items : List α) : list? dec (Json.ofList enc items) = some items :=
  list?_ofList (fun a => unchanged (hdec a)) items _ (.arr (List.forall₂_same.2 fun _ _ => rfl))

theorem listString (items : List String) : list? string? (Json.ofList str items) = some items := by
  refine listSelf (fun _ => ?_) items
  rfl

theorem listEvent (items : List Event) :
    list? (choice? Event.ofText?) (Json.ofList (fun e => str e.text) items) = some items := by
  refine listSelf (fun e => ?_) items
  cases e
  all_goals rfl

end Json

/-! ### Records -/

theorem Column.ofJson?_left (c : Column) {doc : Json} (h : Column.Left c.toJson doc) :
    Column.ofJson? doc = some c := by
  obtain ⟨fields, hfields, hall⟩ := fields?_of_leaves h (show fieldNames.Nodup by decide)
  -- One fact for each field, in the order in which the members are written.
  obtain _ | ⟨hname, _ | ⟨htype, _ | ⟨hlength, _ | ⟨hprecision, _ | ⟨hscale, _ | ⟨hnullable, _ |
    ⟨hprimary, _ | ⟨hunique, _ | ⟨hauto, _ | ⟨hdefault, _ | _⟩⟩⟩⟩⟩⟩⟩⟩⟩⟩ := hall
  have hname : required? string? _ = some c.name := hname.required (by simp [jsonDefaults]) (unchanged rfl)
  have htype : required? string? _ = some c.dataType :=
    htype.required (by simp [jsonDefaults]) (unchanged rfl)
  have hlength : optional? none (option? uint32?) _ = some c.length :=
    hlength.optional (by simp [jsonDefaults]) (unchanged (optionUInt32 _))
  have hprecision : optional? none (option? uint32?) _ = some c.precision :=
    hprecision.optional (by simp [jsonDefaults]) (unchanged (optionUInt32 _))
  have hscale : optional? none (option? uint32?) _ = some c.scale :=
    hscale.optional (by simp [jsonDefaults]) (unchanged (optionUInt32 _))
  have hnullable : optional? true bool? _ = some c.nullable :=
    hnullable.optional (by simp [jsonDefaults]) (unchanged rfl)
  have hprimary : optional? false bool? _ = some c.primaryKey :=
    hprimary.optional (by simp [jsonDefaults]) (unchanged rfl)
  have hunique : optional? false bool? _ = some c.unique :=
    hunique.optional (by simp [jsonDefaults]) (unchanged rfl)
  have hauto : optional? false bool? _ = some c.autoIncrement :=
    hauto.optional (by simp [jsonDefaults]) (unchanged rfl)
  have hdefault : optional? none (option? string?) _ = some c.defaultValue :=
    hdefault.optional (by simp [jsonDefaults]) (unchanged (optionString _))
  rw [Column.ofJson?, show doc.fields? fieldNames = _ from hfields]
  simp only [Option.bind_eq_bind, Option.bind_some, hname, htype, hlength, hprecision, hscale,
    hnullable, hprimary, hunique, hauto, hdefault]
  rfl

theorem Constraint.ofJson?_left (c : Constraint) {doc : Json} (h : Constraint.Left c.toJson doc) :
    Constraint.ofJson? doc = some c := by
  obtain ⟨fields, hfields, hall⟩ := fields?_of_leaves h (show fieldNames.Nodup by decide)
  obtain _ | ⟨hname, _ | ⟨hkind, _ | ⟨hcolumns, _ | ⟨htable, _ | ⟨hrefs, _ | ⟨hdelete, _ |
    ⟨hupdate, _ | ⟨hexpression, _ | _⟩⟩⟩⟩⟩⟩⟩⟩ := hall
  have hname : optional? none (option? string?) _ = some c.name :=
    hname.optional (by simp [jsonDefaults]) (unchanged (optionString _))
  have hkind : required? (choice? ConstraintKind.ofText?) _ = some c.kind :=
    hkind.required (by simp [jsonDefaults]) (unchanged (by cases c.kind <;> rfl))
  have hcolumns : optional? [] (list? string?) _ = some c.columns :=
    hcolumns.optional (by simp [jsonDefaults]) (unchanged (listString _))
  have htable : optional? none (option? string?) _ = some c.refTable :=
    htable.optional (by simp [jsonDefaults]) (unchanged (optionString _))
  have hrefs : optional? [] (list? string?) _ = some c.refColumns :=
    hrefs.optional (by simp [jsonDefaults]) (unchanged (listString _))
  have hdelete : optional? none (option? string?) _ = some c.onDelete :=
    hdelete.optional (by simp [jsonDefaults]) (unchanged (optionString _))
  have hupdate : optional? none (option? string?) _ = some c.onUpdate :=
    hupdate.optional (by simp [jsonDefaults]) (unchanged (optionString _))
  have hexpression : optional? none (option? string?) _ = some c.expression :=
    hexpression.optional (by simp [jsonDefaults]) (unchanged (optionString _))
  rw [Constraint.ofJson?, show doc.fields? fieldNames = _ from hfields]
  simp only [Option.bind_eq_bind, Option.bind_some, hname, hkind, hcolumns, htable, hrefs, hdelete,
    hupdate, hexpression]
  rfl

theorem Table.ofJson?_left (t : Table) {doc : Json} (h : Table.Left t.toJson doc) :
    Table.ofJson? doc = some t := by
  obtain ⟨fields, hfields, hall⟩ := fields?_of_leaves h (show fieldNames.Nodup by decide)
  obtain _ | ⟨hname, _ | ⟨hcolumns, _ | ⟨hconstraints, _ | _⟩⟩⟩ := hall
  have hname : required? string? _ = some t.name := hname.required (by simp [jsonDefaults]) (unchanged rfl)
  have hcolumns : required? (list? Column.ofJson?) _ = some t.columns :=
    hcolumns.required (by simp [jsonDefaults]) (list?_ofList (fun c _ => c.ofJson?_left) _)
  have hconstraints : optional? [] (list? Constraint.ofJson?) _ = some t.constraints :=
    hconstraints.optional (by simp [jsonDefaults]) (list?_ofList (fun c _ => c.ofJson?_left) _)
  rw [Table.ofJson?, show doc.fields? fieldNames = _ from hfields]
  simp only [Option.bind_eq_bind, Option.bind_some, hname, hcolumns, hconstraints]
  rfl

theorem Sequence.ofJson?_left (s : Sequence) {doc : Json} (h : Sequence.Left s.toJson doc) :
    Sequence.ofJson? doc = some s := by
  obtain ⟨fields, hfields, hall⟩ := fields?_of_leaves h (show fieldNames.Nodup by decide)
  obtain _ | ⟨hname, _ | ⟨hstart, _ | ⟨hincrement, _ | ⟨hmin, _ | ⟨hmax, _ | ⟨hcache, _ |
    ⟨hcycle, _ | _⟩⟩⟩⟩⟩⟩⟩ := hall
  have hname : required? string? _ = some s.name := hname.required (by simp [jsonDefaults]) (unchanged rfl)
  have hstart : required? int64? _ = some s.startValue :=
    hstart.required (by simp [jsonDefaults]) (unchanged (int64?_ofInt64 _))
  have hincrement : required? int64? _ = some s.incrementBy :=
    hincrement.required (by simp [jsonDefaults]) (unchanged (int64?_ofInt64 _))
  have hmin : optional? none (option? int64?) _ = some s.minValue :=
    hmin.optional (by simp [jsonDefaults]) (unchanged (optionInt64 _))
  have hmax : optional? none (option? int64?) _ = some s.maxValue :=
    hmax.optional (by simp [jsonDefaults]) (unchanged (optionInt64 _))
  have hcache : optional? none (option? int64?) _ = some s.cache :=
    hcache.optional (by simp [jsonDefaults]) (unchanged (optionInt64 _))
  have hcycle : optional? false bool? _ = some s.cycle :=
    hcycle.optional (by simp [jsonDefaults]) (unchanged rfl)
  rw [Sequence.ofJson?, show doc.fields? fieldNames = _ from hfields]
  simp only [Option.bind_eq_bind, Option.bind_some, hname, hstart, hincrement, hmin, hmax, hcache,
    hcycle]
  rfl

theorem View.ofJson?_left (v : View) {doc : Json} (h : View.Left v.toJson doc) :
    View.ofJson? doc = some v := by
  obtain ⟨fields, hfields, hall⟩ := fields?_of_leaves h (show fieldNames.Nodup by decide)
  obtain _ | ⟨hname, _ | ⟨hdefinition, _ | ⟨hreplace, _ | _⟩⟩⟩ := hall
  have hname : required? string? _ = some v.name := hname.required (by simp [jsonDefaults]) (unchanged rfl)
  have hdefinition : required? string? _ = some v.definition :=
    hdefinition.required (by simp [jsonDefaults]) (unchanged rfl)
  have hreplace : optional? false bool? _ = some v.orReplace :=
    hreplace.optional (by simp [jsonDefaults]) (unchanged rfl)
  rw [View.ofJson?, show doc.fields? fieldNames = _ from hfields]
  simp only [Option.bind_eq_bind, Option.bind_some, hname, hdefinition, hreplace]
  rfl

theorem Trigger.ofJson?_left (t : Trigger) {doc : Json} (h : Trigger.Left t.toJson doc) :
    Trigger.ofJson? doc = some t := by
  obtain ⟨fields, hfields, hall⟩ := fields?_of_leaves h (show fieldNames.Nodup by decide)
  obtain _ | ⟨hname, _ | ⟨htable, _ | ⟨htiming, _ | ⟨hevents, _ | ⟨hrow, _ | ⟨hbody, _ | _⟩⟩⟩⟩⟩⟩ := hall
  have hname : required? string? _ = some t.name := hname.required (by simp [jsonDefaults]) (unchanged rfl)
  have htable : required? string? _ = some t.table :=
    htable.required (by simp [jsonDefaults]) (unchanged rfl)
  have htiming : required? (choice? Timing.ofText?) _ = some t.timing :=
    htiming.required (by simp [jsonDefaults]) (unchanged (by cases t.timing <;> rfl))
  have hevents : required? (list? (choice? Event.ofText?)) _ = some t.events :=
    hevents.required (by simp [jsonDefaults]) (unchanged (listEvent _))
  have hrow : optional? false bool? _ = some t.forEachRow :=
    hrow.optional (by simp [jsonDefaults]) (unchanged rfl)
  have hbody : required? string? _ = some t.body := hbody.required (by simp [jsonDefaults]) (unchanged rfl)
  rw [Trigger.ofJson?, show doc.fields? fieldNames = _ from hfields]
  simp only [Option.bind_eq_bind, Option.bind_some, hname, htable, htiming, hevents, hrow, hbody]
  rfl

theorem Schema.ofJson?_left (s : Schema) {doc : Json} (h : Schema.Left s.toJson doc) :
    Schema.ofJson? doc = some s := by
  obtain ⟨fields, hfields, hall⟩ := fields?_of_leaves h (show fieldNames.Nodup by decide)
  obtain _ | ⟨hname, _ | ⟨htables, _ | ⟨hsequences, _ | ⟨hviews, _ | ⟨htriggers, _ | _⟩⟩⟩⟩⟩ := hall
  have hname : required? string? _ = some s.name := hname.required (by simp [jsonDefaults]) (unchanged rfl)
  have htables : optional? [] (list? Table.ofJson?) _ = some s.tables :=
    htables.optional (by simp [jsonDefaults]) (list?_ofList (fun t _ => t.ofJson?_left) _)
  have hsequences : optional? [] (list? Sequence.ofJson?) _ = some s.sequences :=
    hsequences.optional (by simp [jsonDefaults]) (list?_ofList (fun s _ => s.ofJson?_left) _)
  have hviews : optional? [] (list? View.ofJson?) _ = some s.views :=
    hviews.optional (by simp [jsonDefaults]) (list?_ofList (fun v _ => v.ofJson?_left) _)
  have htriggers : optional? [] (list? Trigger.ofJson?) _ = some s.triggers :=
    htriggers.optional (by simp [jsonDefaults]) (list?_ofList (fun t _ => t.ofJson?_left) _)
  rw [Schema.ofJson?, show doc.fields? fieldNames = _ from hfields]
  simp only [Option.bind_eq_bind, Option.bind_some, hname, htables, hsequences, hviews, htriggers]
  rfl

/-! ### Texts -/

namespace Json

variable {α : Type} {inner : String → Json → Json → Prop} {defaults : List (String × Json)} {v w : Json}

theorem Leaves.plain (hinner : ∀ name v w, inner name v w → Plain v → Plain w)
    (h : Leaves inner defaults v w) (hv : Plain v) : Plain w := by
  obtain ⟨h⟩ := h
  rw [plain_obj_iff] at hv ⊢
  induction h with
  | nil => exact hv
  | keep hm _ ih =>
    rw [List.forall_mem_cons] at hv ⊢
    exact ⟨hinner _ _ _ hm hv.1, ih hv.2⟩
  | delete _ _ ih => exact ih fun m hm => hv m (List.mem_cons_of_mem _ hm)

theorem LeavesItems.plain {left : Json → Json → Prop} (hleft : ∀ v w, left v w → Plain v → Plain w)
    (h : LeavesItems left v w) (hv : Plain v) : Plain w := by
  obtain ⟨h⟩ := h
  rw [plain_arr_iff] at hv ⊢
  induction h with
  | nil => exact hv
  | cons hitem _ ih =>
    rw [List.forall_mem_cons] at hv ⊢
    exact ⟨hleft _ _ hitem hv.1, ih hv.2⟩

theorem plain_of_eq (_ : String) (v w : Json) (h : v = w) (hv : Plain v) : Plain w := h ▸ hv

theorem plain_ofUInt32 (n : UInt32) : Plain (ofUInt32 n) := .int _

theorem plain_ofInt64 (n : Int64) : Plain (ofInt64 n) := .int _

theorem plain_ofOption {f : α → Json} (hf : ∀ a, Plain (f a)) (a : Option α) : Plain (ofOption f a) := by
  cases a with
  | none => exact .null
  | some a => exact hf a

theorem plain_ofList {f : α → Json} (hf : ∀ a, Plain (f a)) (items : List α) :
    Plain (Json.ofList f items) := by
  simp [Json.ofList, hf]

end Json

theorem Column.plain_toJson (c : Column) : Plain c.toJson := by
  simp [toJson, plain_ofOption, plain_ofUInt32]

theorem Constraint.plain_toJson (c : Constraint) : Plain c.toJson := by
  simp [toJson, plain_ofOption, plain_ofList]

theorem Table.plain_toJson (t : Table) : Plain t.toJson := by
  simp [toJson, plain_ofList, Column.plain_toJson, Constraint.plain_toJson]

theorem Sequence.plain_toJson (s : Sequence) : Plain s.toJson := by
  simp [toJson, plain_ofOption, plain_ofInt64]

theorem View.plain_toJson (v : View) : Plain v.toJson := by
  simp [toJson]

theorem Trigger.plain_toJson (t : Trigger) : Plain t.toJson := by
  simp [toJson, plain_ofList]

theorem Schema.plain_toJson (s : Schema) : Plain s.toJson := by
  simp [toJson, plain_ofList, Table.plain_toJson, Sequence.plain_toJson, View.plain_toJson,
    Trigger.plain_toJson]

theorem Table.LeftMember.plain (name : String) (v w : Json) (h : LeftMember name v w) (hv : Plain v) :
    Plain w := by
  unfold LeftMember at h
  split at h
  case h_1 | h_2 => exact LeavesItems.plain (fun _ _ => Leaves.plain plain_of_eq) h hv
  case h_3 => exact h ▸ hv

theorem Schema.LeftMember.plain (name : String) (v w : Json) (h : LeftMember name v w) (hv : Plain v) :
    Plain w := by
  unfold LeftMember at h
  split at h
  case h_1 => exact LeavesItems.plain (fun _ _ => Leaves.plain Table.LeftMember.plain) h hv
  case h_2 | h_3 | h_4 => exact LeavesItems.plain (fun _ _ => Leaves.plain plain_of_eq) h hv
  case h_5 => exact h ▸ hv

/-! ### The whole schema -/

theorem Json.LeavesItems.ofList {α : Type} {enc : α → Json} {left : Json → Json → Prop}
    (h : ∀ a, left (enc a) (enc a)) (items : List α) :
    LeavesItems left (Json.ofList enc items) (Json.ofList enc items) := by
  refine .arr (List.forall₂_same.2 fun v hv => ?_)
  obtain ⟨a, -, rfl⟩ := List.mem_map.1 hv
  exact h a

/-- Nothing need be deleted from a record without lists of records. -/
theorem Json.Leaves.self {defaults : List (String × Json)} (ms : List (String × Json)) :
    Leaves (fun _ => Eq) defaults (.obj ms) (.obj ms) :=
  .refl (fun _ _ => rfl) ms

theorem Table.left_self (t : Table) : Table.Left t.toJson t.toJson :=
  .obj <| .keep rfl <| .keep (.ofList (fun _ => .self _) _) <| .keep (.ofList (fun _ => .self _) _) .nil

theorem Schema.left_self (s : Schema) : Schema.Left s.toJson s.toJson :=
  .obj <| .keep rfl <| .keep (.ofList Table.left_self _) <| .keep (.ofList (fun _ => .self _) _) <|
    .keep (.ofList (fun _ => .self _) _) <| .keep (.ofList (fun _ => .self _) _) .nil

theorem Schema.ofJsonText?_left (s : Schema) {doc : Json} (h : Schema.Left s.toJson doc) :
    ofJsonText? doc.prettyText = some s := by
  have hplain : Plain doc := Leaves.plain Schema.LeftMember.plain h s.plain_toJson
  rw [ofJsonText?, prettyText, String.toList_ofList, parse?_pretty hplain, Option.bind_some]
  exact s.ofJson?_left h

/-- **The JSON form of a schema loses nothing.** Its text is read back as the same schema. So is every
document left of it if members that have the default of their field are deleted, in the schema itself
or in any of its entities. -/
theorem Schema.ofJsonText?_toJsonText (s : Schema) : ofJsonText? s.toJsonText = some s ∧
    ∀ doc, Schema.Left s.toJson doc → Schema.ofJson? doc = some s ∧
      ofJsonText? doc.prettyText = some s :=
  ⟨s.ofJsonText?_left s.left_self, fun _ h => ⟨s.ofJson?_left h, s.ofJsonText?_left h⟩⟩

/-- A name with a quote, a backslash and a control character, and a column of which only the name and
the type are left. -/
theorem Schema.ofJsonText?_toJsonText_sparse :
    let column : Column := { name := "c", dataType := "INT" }
    let schema : Schema := { name := "\x22\\\x01é", tables := [{ name := "t", columns := [column] }] }
    let columns := Json.arr [.obj [("name", .str "c"), ("data_type", .str "INT")]]
    let doc := Json.obj [("name", .str "\x22\\\x01é"),
      ("tables", .arr [.obj [("name", .str "t"), ("columns", columns)]])]
    Schema.Left schema.toJson doc ∧ ofJsonText? doc.prettyText = some schema := by
  intro column schema columns doc
  have hcolumn : Column.Left column.toJson (.obj [("name", .str "c"), ("data_type", .str "INT")]) := by
    refine .obj (.keep rfl (.keep rfl (.delete ?_ (.delete ?_ (.delete ?_ (.delete ?_ (.delete ?_
      (.delete ?_ (.delete ?_ (.delete ?_ .nil))))))))))
    all_goals simp [column, Column.jsonDefaults, ofOption]
  have hcolumns : LeavesItems Column.Left (Json.ofList Column.toJson [column]) columns :=
    .arr (.cons hcolumn .nil)
  have htable : Table.Left (Table.toJson { name := "t", columns := [column] })
      (.obj [("name", .str "t"), ("columns", columns)]) :=
    .obj (.keep rfl (.keep hcolumns (.delete (by simp [Table.jsonDefaults]) .nil)))
  have hleft : Schema.Left schema.toJson doc := by
    refine .obj (.keep rfl (.keep (.arr (.cons htable .nil)) (.delete ?_ (.delete ?_ (.delete ?_ .nil)))))
    all_goals simp [schema, Schema.jsonDefaults]
  exact ⟨hleft, ((Schema.ofJsonText?_toJsonText schema).2 doc hleft).2⟩

end DdlBridge
