import Nanom.Soa.Faithful

/-!
# Avro schemas

`avro_schema` writes the schema of a described struct as JSON. A record and a
fixed type have a name, which Avro lets a schema define once. The members are
written one by one wherever they occur, so a name is defined as often as a
struct or an array of bytes of that name occurs, in the tree (`defines_fieldJson`)
and in the text (`definedIn_avroSchema`).
-/

namespace Nanom.Avro

open Layout Soa List

/-- A type as `avro_schema` writes it. -/
inductive Schema
  | primitive (name : String)
  | fixed (name : String) (size : ℕ)
  | array (items : String)
  | record (n : ℕ) (name : String) (field : Fin n → String) (types : Fin n → Schema)

namespace Schema

/-- The JSON text. -/
def json : Schema → String
  | .primitive name => "\"" ++ name ++ "\""
  | .fixed name size =>
    "\x7b\"type\":\"fixed\",\"name\":\"" ++ name ++ "\",\"size\":" ++ toString size ++ "\x7d"
  | .array items => "\x7b\"type\":\"array\",\"items\":\"" ++ items ++ "\"\x7d"
  | .record _ name field types =>
    "\x7b\"type\":\"record\",\"name\":\"" ++ name ++ "\",\"fields\":[" ++
      ",".intercalate (List.ofFn fun k => "\x7b\"name\":\"" ++ field k ++ "\",\"type\":" ++
        json (types k) ++ "\x7d") ++ "]\x7d"

/-- The names a schema defines, one by one. -/
def defines : Schema → List String
  | .fixed name _ => [name]
  | .record n name _ types => name :: (List.finRange n).flatMap fun k => defines (types k)
  | _ => []

end Schema

/-- The type of a number. -/
def scalarName : Kind → String
  | .u8 | .u16 | .i8 | .i16 | .i32 => "int"
  | .u32 | .u64 | .i64 => "long"
  | .f32 => "float"
  | .f64 => "double"
  | _ => "bytes"

/-- `avro_field_json` of what is no struct. -/
def leafJson (f : SchemaField) : Schema :=
  match f.kind with
  | .fixedBin => .fixed (f.name ++ "_fx") f.size
  | .list => .array (scalarName f.elem)
  | kind => .primitive (scalarName kind)

/-- `avro_field_json`, and `avro_record_json` for a struct. -/
def fieldJson (abi : Abi) : Ty → String → Schema
  | .struct n name field types, _ =>
    .record n name field fun k => fieldJson abi (types k) (field k)
  | T, name => leafJson (fieldSchema abi T name)

def avroSchema (abi : Abi) (T : Ty) : String := (fieldJson abi T "").json

/-- The names of the structs and of the arrays of bytes a member is made of,
as often as they occur. -/
def named (abi : Abi) : Ty → String → List String
  | .struct n name field types, _ =>
    name :: (List.finRange n).flatMap fun k => named abi (types k) (field k)
  | .array _ elem, name => if byteElem abi elem then [name ++ "_fx"] else []
  | _, _ => []

theorem defines_leafJson {f : SchemaField} (h : f.kind ≠ .fixedBin) :
    (leafJson f).defines = [] := by
  unfold leafJson
  split
  · exact absurd ‹_› h
  · rfl
  · rfl

/-- **What a schema defines** is what the struct is made of. -/
theorem defines_fieldJson (abi : Abi) (T : Ty) (name : String) :
    (fieldJson abi T name).defines = named abi T name := by
  induction T generalizing name with
  | struct n name field types ih =>
    rw [fieldJson, Schema.defines, named]
    simp only [ih]
  | array n elem ih =>
    simp only [fieldJson, named, fieldSchema]
    split_ifs
    · rfl
    · exact defines_leafJson (by simp)
  | scalar s | endian order s => exact defines_leafJson (scalarKind_cases s).1
  | bits signed n => exact defines_leafJson (scalarKind_cases (.int signed (uintForBits n))).1

/-! ## The text -/

/-- The pieces of a text between its quotation marks. -/
def pieces (text : List Char) : List String := (text.splitOn '"').map String.ofList

/-- What is quoted behind `"record","name":` and `"fixed","name":`. -/
def namesIn : List String → List String
  | [] => []
  | p :: ps =>
    if p ∈ ["record", "fixed"] ∧ ps.take 3 = [",", "name", ":"] then
      (ps.drop 3).take 1 ++ namesIn ps
    else namesIn ps

/-- The names that a JSON text defines. -/
def definedIn (text : String) : List String := namesIn (pieces text.toList)

/-- No name has a quotation mark in it. -/
def Unquoted : Ty → Prop
  | .struct _ name field types =>
    '"' ∉ name.toList ∧ ∀ k, '"' ∉ (field k).toList ∧ Unquoted (types k)
  | _ => True

/-- Pieces with a quotation mark behind each. -/
def quoted (ps : List String) : List Char := ps.flatMap (·.toList ++ ['"'])

theorem pieces_quoted {ps : List String} (h : ∀ p ∈ ps, '"' ∉ p.toList) (u : List Char) :
    pieces (quoted ps ++ u) = ps ++ pieces u := by
  induction ps with
  | nil => rfl
  | cons p ps ih =>
    obtain ⟨hp, hps⟩ := forall_mem_cons.1 h
    have hsplit : (p.toList ++ '"' :: (quoted ps ++ u)).splitOn '"'
        = p.toList :: (quoted ps ++ u).splitOn '"' :=
      splitOnP_append_cons_of_forall_mem (fun c hc => beq_false_of_ne (ne_of_mem_of_not_mem hc hp))
        '"' rfl _
    rw [cons_append, ← ih hps, quoted, flatMap_cons, append_assoc, append_assoc, ← quoted]
    refine (congrArg (map String.ofList) hsplit).trans ?_
    rw [map_cons, String.ofList_toList]
    rfl

/-- What is not quoted: no quotation mark, and none of the types with names. -/
def Between (a : List Char) : Prop := '"' ∉ a ∧ 'd' ∉ a

/-- A text that defines names, whatever it stands between. -/
def Writes (text : List Char) (names : List String) : Prop :=
  ∀ ⦃pre⦄, Between pre → ∀ u, ∃ post, Between post ∧
    namesIn (pieces (pre ++ (text ++ u))) = names ++ namesIn (pieces (post ++ u))

namespace Writes

variable {a b : List Char} {ps names names' : List String} {n : ℕ} {name : String}

theorem append (ha : Writes a names) (hb : Writes b names') :
    Writes (a ++ b) (names ++ names') := by
  intro pre hpre u
  obtain ⟨mid, hmid, hnames⟩ := ha hpre (b ++ u)
  obtain ⟨post, hpost, hnames'⟩ := hb hmid u
  exact ⟨post, hpost, by rw [append_assoc, hnames, hnames', append_assoc]⟩

theorem between (ha : Between a) : Writes a [] := by
  intro pre hpre u
  refine ⟨pre ++ a, ?_, by rw [append_assoc]; rfl⟩
  simpa [Between] using ⟨⟨hpre.1, ha.1⟩, hpre.2, ha.2⟩

theorem inQuotes (hq : ∀ p ∈ ps, '"' ∉ p.toList)
    (hnames : ∀ qs, namesIn (ps ++ qs) = names ++ namesIn qs) :
    Writes ('"' :: quoted ps) names := by
  intro pre hpre u
  refine ⟨[], by simp [Between], ?_⟩
  have htext : pre ++ ('"' :: quoted ps ++ u) = quoted (String.ofList pre :: ps) ++ u := by
    simp [quoted]
  rw [htext, pieces_quoted (forall_mem_cons.2 ⟨by simpa using hpre.1, hq⟩), nil_append, ← hnames]
  -- what stands before the quotation mark is none of the types
  refine if_neg fun h => hpre.2 ?_
  rw [← String.toList_ofList (l := pre)]
  exact (show ∀ p ∈ ["record", "fixed"], 'd' ∈ p.toList by decide) _ h.1

theorem object (hq : ∀ p ∈ ps, '"' ∉ p.toList)
    (hnames : ∀ qs, namesIn (ps ++ qs) = names ++ namesIn qs) (hb : Writes b names') :
    Writes ('\x7b' :: '"' :: quoted ps ++ b) (names ++ names') :=
  ((@between ['\x7b'] (by simp [Between])).append (inQuotes hq hnames)).append hb

theorem close (hb : Writes b names) : Writes (b ++ ['\x7d']) names := by
  simpa using hb.append (@between ['\x7d'] (by simp [Between]))

theorem fixed (hname : '"' ∉ name.toList) (size : ℕ) :
    Writes (Schema.fixed name size).json.toList [name] := by
  have hdigit {c : Char} (h : c ∈ Nat.toDigits 10 size) : c.isDigit :=
    Nat.isDigit_of_mem_toDigits (by decide) (by decide) h
  have hsize : Writes (Nat.toDigits 10 size) [] :=
    between ⟨fun h => absurd (hdigit h) (by decide), fun h => absurd (hdigit h) (by decide)⟩
  have htext := @object _ ["type", ":", "fixed", ",", "name", ":", name, ",", "size"] [name] _
    (by simp [hname]) (fun qs => by simp [namesIn])
    ((@between [':'] (by simp [Between])).append hsize).close
  change Writes ("\x7b\"type\":\"fixed\",\"name\":\"" ++ name ++ "\",\"size\":" ++ toString size ++
    "\x7d").toList [name]
  simpa [quoted] using htext

theorem array (hname : '"' ∉ name.toList) (hkind : name ∉ ["record", "fixed"]) :
    Writes (Schema.array name).json.toList [] := by
  have htext := @object [] ["type", ":", "array", ",", "items", ":", name] [] []
    (by simp [hname]) (fun qs => by simp_all [namesIn]) (between (by simp [Between]))
  change Writes ("\x7b\"type\":\"array\",\"items\":\"" ++ name ++ "\"\x7d").toList []
  simpa [quoted] using htext.close

theorem primitive (hname : '"' ∉ name.toList) (hkind : name ∉ ["record", "fixed"]) :
    Writes (Schema.primitive name).json.toList [] := by
  have htext : Writes ('"' :: quoted [name]) [] :=
    inQuotes (by simpa using hname) fun qs => if_neg fun h => hkind h.1
  change Writes ("\"" ++ name ++ "\"").toList []
  simpa [quoted] using htext

theorem member {json : String} (h : Writes json.toList names) (hname : '"' ∉ name.toList) :
    Writes ("\x7b\"name\":\"" ++ name ++ "\",\"type\":" ++ json ++ "\x7d").toList names := by
  have htext := @object _ ["name", ":", name, ",", "type"] [] _ (by simp [hname])
    (fun qs => by simp [namesIn]) ((@between [':'] (by simp [Between])).append h).close
  simpa [quoted] using htext

theorem members {text : Fin n → String} {names : Fin n → List String}
    (h : ∀ k, Writes (text k).toList (names k)) :
    Writes (",".intercalate (ofFn text)).toList ((finRange n).flatMap names) := by
  rw [String.toList_intercalate, map_ofFn, ofFn_eq_map]
  induction finRange n with
  | nil => exact between (by simp [Between])
  | cons k ks ih =>
    cases ks with
    | nil => simpa using h k
    | cons k' ks =>
      have hcomma := ((h k).append (@between [','] (by simp [Between]))).append ih
      simpa [intercalate_cons_cons] using hcomma

theorem record {field : Fin n → String} {types : Fin n → Schema}
    (hname : '"' ∉ name.toList) (hfield : ∀ k, '"' ∉ (field k).toList)
    (htypes : ∀ k, Writes (types k).json.toList (types k).defines) :
    Writes (Schema.record n name field types).json.toList
      (Schema.record n name field types).defines := by
  have hmembers := members fun k => (htypes k).member (hfield k)
  change Writes ("\x7b\"type\":\"record\",\"name\":\"" ++ name ++ "\",\"fields\":[" ++
    ",".intercalate (List.ofFn fun k => "\x7b\"name\":\"" ++ field k ++ "\",\"type\":" ++
      (types k).json ++ "\x7d") ++ "]\x7d").toList (name :: (finRange n).flatMap _)
  generalize ",".intercalate _ = text at hmembers ⊢
  have htext := @object _ ["type", ":", "record", ",", "name", ":", name, ",", "fields"] [name] _
    (by simp [hname]) (fun qs => by simp [namesIn])
    (((@between [':', '['] (by simp [Between])).append hmembers).append
      (@between [']'] (by simp [Between]))).close
  simpa [quoted] using htext

theorem fieldJson (abi : Abi) {T : Ty} (hname : '"' ∉ name.toList) (h : Unquoted T) :
    Writes (fieldJson abi T name).json.toList (fieldJson abi T name).defines := by
  have hscalar (kind : Kind) : '"' ∉ (scalarName kind).toList ∧
      scalarName kind ∉ ["record", "fixed"] := by cases kind <;> decide
  have hleaf (f : SchemaField) (hf : '"' ∉ f.name.toList) :
      Writes (leafJson f).json.toList (leafJson f).defines := by
    unfold leafJson
    split
    · exact fixed (by simp [hf]) _
    · exact array (hscalar _).1 (hscalar _).2
    · exact primitive (hscalar _).1 (hscalar _).2
  induction T generalizing name with
  | struct n name field types ih =>
    exact record h.1 (fun k => (h.2 k).1) fun k => ih k (h.2 k).1 (h.2 k).2
  | array n elem _ =>
    refine hleaf _ ?_
    rw [fieldSchema]
    split <;> exact hname
  | scalar | endian | bits => exact hleaf _ hname

end Writes

/-- **The text defines what the struct is made of.** -/
theorem definedIn_avroSchema (abi : Abi) {T : Ty} (h : Unquoted T) :
    definedIn (avroSchema abi T) = named abi T "" := by
  obtain ⟨post, hpost, hnames⟩ :=
    @Writes.fieldJson "" abi T (by simp) h [] (by simp [Between]) []
  have hend : pieces post = [String.ofList post] := by
    rw [pieces, splitOn_eq_singleton hpost.1]
    rfl
  rw [append_nil, append_nil, hend] at hnames
  rw [← defines_fieldJson, definedIn, avroSchema]
  simpa [namesIn] using hnames

/-- **A name is defined at most once** where no two structs or arrays of bytes
in the struct have one name. In the text too what is defined is what the struct is
made of, if no name has a quotation mark. -/
theorem names_once_iff (abi : Abi) (T : Ty) :
    ((fieldJson abi T "").defines.Nodup ↔ (named abi T "").Nodup) ∧
      (Unquoted T → definedIn (avroSchema abi T) = named abi T "") :=
  ⟨by rw [defines_fieldJson], definedIn_avroSchema abi⟩

/-! ## A row -/

section Rows

def portIdentity : Ty :=
  .struct 2 "nmgptp::PortIdentity" (["clock_identity", "port_number"].get ·)
    ([.array 8 (.scalar (.int false .one)), .scalar (.int false .two)].get ·)

def rowCommon : Ty :=
  .struct 7 "nmgptp::RowCommon"
    (["msg_index", "packet_id", "domain_number", "sequence_id", "correction_field",
      "log_message_interval", "source_port_identity"].get ·)
    ([.scalar (.int false .eight), .scalar (.int false .eight), .scalar (.int false .one),
      .scalar (.int false .two), .scalar (.int true .eight), .scalar (.int true .one),
      portIdentity].get ·)

def delayRespRow : Ty :=
  .struct 4 "nmgptp::DelayRespRow"
    (["common", "receive_timestamp_seconds", "receive_timestamp_nanoseconds",
      "requesting_port_identity"].get ·)
    ([rowCommon, .scalar (.int false .eight), .scalar (.int false .four), portIdentity].get ·)

theorem names_once_iff_portIdentity :
    definedIn (avroSchema (Abi.natural .little) portIdentity)
      = ["nmgptp::PortIdentity", "clock_identity_fx"] := by
  refine ((names_once_iff _ portIdentity).2 ⟨by decide, ?_⟩).trans (by decide +kernel)
  exact fun | 0 => ⟨by decide, trivial⟩ | 1 => ⟨by decide, trivial⟩

/-- Its schema defines `PortIdentity` twice. -/
theorem portIdentity_defined_twice :
    ¬(fieldJson (Abi.natural .little) delayRespRow "").defines.Nodup := by
  decide +kernel

end Rows

end Nanom.Avro
