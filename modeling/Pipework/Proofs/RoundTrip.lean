import Pipework.Definition.Text
import Pipework.Proofs.Basics
import Pipework.Proofs.WrittenJson

/-!
# Definitions that are read as they were written

A pipeline is read from what the text of its JSON holds, in both dialects: records because each of their
keys is there once, settings because their keys are in order, and values because what is written for them
tells of which kind they are. Numbers that are not integers have to come back from what is written for
them. A reader of documents is not looked into: what counts is that it finds in the text of the pipeline
what this text holds.
-/

namespace Pipework

/-! ### Settings and lists -/

namespace Settings

/-- An entry with the greatest key goes behind the others. -/
theorem insertEntry_last {key : String} {value : Value} {front : List (String × Value)}
    (h : ∀ entry ∈ front, entry.1 < key) : insertEntry key value front = front ++ [(key, value)] := by
  induction front with
  | nil => rfl
  | cons entry front ih =>
    obtain ⟨hfirst, hrest⟩ := List.forall_mem_cons.mp h
    rw [insertEntry, if_neg (String.lt_asymm hfirst), if_pos hfirst, ih hrest, List.cons_append]

/-- Entries whose keys rise beyond those of settings come in behind them. -/
theorem entries_foldl_insert {entries : List (String × Value)} {s : Settings}
    (h : (s.entries ++ entries).Pairwise fun a b => a.1 < b.1) :
    (entries.foldl (fun s entry => s.insert entry.1 entry.2) s).entries = s.entries ++ entries := by
  induction entries generalizing s with
  | nil => rw [List.foldl_nil, List.append_nil]
  | cons entry entries ih =>
    have hlast : (s.insert entry.1 entry.2).entries = s.entries ++ [entry] :=
      insertEntry_last fun e he => (List.pairwise_append.mp h).2.2 e he entry List.mem_cons_self
    rw [List.foldl_cons, ih, hlast, List.append_assoc, List.singleton_append]
    rwa [hlast, List.append_assoc, List.singleton_append]

/-- Settings are made up again of their entries. -/
theorem ofList_entries (s : Settings) : ofList s.entries = s := by
  have hentries : (ofList s.entries).entries = s.entries := entries_foldl_insert (s := ∅) s.sorted
  generalize ofList s.entries = made at hentries
  obtain ⟨_, _⟩ := made
  obtain ⟨_, _⟩ := s
  congr

end Settings

theorem Value.allToJson_eq_map (vs : List Value) : Value.allToJson vs = vs.map Value.toJson := by
  induction vs with
  | nil => rfl
  | cons v vs ih => rw [Value.allToJson, ih, List.map_cons]

/-! ### Jobs and pipelines among fields -/

/-- Jobs are read one by one. -/
theorem jobsOfJson?_eq (d : Dialect) (items : List Json) :
    jobsOfJson? d items = items.mapM (Job.ofJson? d) := by
  induction items with
  | nil => rfl
  | cons item items ih => rw [jobsOfJson?, ih, List.mapM_cons]

namespace Dialect

/-- A field is sought first among the ones ahead. -/
theorem field?_cons {α : Type} (key : String) (json : Json) (fields : List (String × Json))
    (sought : String) (absent? : Option α) (read : Json → Option α) :
    field? ((key, json) :: fields) sought absent? read =
      if key == sought then read json else field? fields sought absent? read := by
  rw [field?, List.lookup_cons, BEq.comm]
  cases key == sought <;> rfl

end Dialect

/-- The jobs among the fields of a pipeline are a field like others. -/
theorem jobsIn?_eq (d : Dialect) (fields : List (String × Json)) :
    jobsIn? d fields = Dialect.field? fields "jobs" (some []) (Dialect.list? (Job.ofJson? d)) := by
  induction fields with
  | nil => rw [jobsIn?]; rfl
  | cons field fields ih =>
    obtain ⟨key, json⟩ := field
    cases json with
    | arr items =>
      rw [jobsIn?, ih, Dialect.field?_cons]
      simp only [Dialect.list?, jobsOfJson?_eq]
    | _ => rw [jobsIn?, ih, Dialect.field?_cons] <;> first | rfl | simp

/-- So is the pipeline among the fields of a job. -/
theorem nestedIn?_eq (d : Dialect) (fields : List (String × Json)) :
    nestedIn? d fields =
      Dialect.field? fields "pipeline" (some none) (Dialect.orNull? (Pipeline.ofJson? d)) := by
  induction fields with
  | nil => rw [nestedIn?]; rfl
  | cons field fields ih =>
    obtain ⟨key, json⟩ := field
    cases json with
    | null => rw [nestedIn?, ih, Dialect.field?_cons]; rfl
    | _ => rw [nestedIn?, ih, Dialect.field?_cons] <;> first | rfl | simp

section

variable {d : Dialect}

/-! ### Values -/

namespace Value

mutual

/-- A value is read as the kind of value that it was. -/
theorem ofJson_written : ∀ {v : Value}, v.toJson.FloatsReadBack →
    Value.ofJson d v.toJson.written = .ok v
  | .bool _, _ => rfl
  | .int n, _ => ofLiteral_toString d n
  | .float x, h => by
    have hback := h x (List.mem_singleton_self x)
    have hfinite := Json.isFinite_of_readsBack hback
    have hkept : (Binary64.ofText? (x.render .inJson)).filter (·.isFinite) = some x := by
      rw [hback]
      exact if_pos hfinite
    rw [toJson, Json.written, if_pos hfinite, ofJson, ofLiteral_render hfinite, ofWideLiteral.eq_def,
      hkept]
    rfl
  | .str _, _ => rfl
  | .list items, h => by
    rw [toJson, Json.written_arr, ofJson, allOfJson_written (Json.floatsReadBack_arr.mp h)]
    rfl

/-- So are several. -/
theorem allOfJson_written : ∀ {vs : List Value}, (∀ item ∈ allToJson vs, item.FloatsReadBack) →
    allOfJson d ((allToJson vs).map Json.written) = .ok vs
  | [], _ => rfl
  | v :: vs, h => by
    rw [allToJson] at h
    obtain ⟨hfirst, hrest⟩ := List.forall_mem_cons.mp h
    rw [allToJson, List.map_cons, allOfJson, ofJson_written hfirst, allOfJson_written hrest]
    rfl

end

/-- A value is read from what the text of its data holds. -/
theorem ofJson?_written {v : Value} (h : v.toJson.FloatsReadBack) :
    Value.ofJson? d v.toJson.written = some v := by
  rw [Value.ofJson?, ofJson_written h]
  rfl

end Value

/-! ### Lists and records -/

namespace Dialect

/-- A list is read as it was if its items are. -/
theorem list?_written {α : Type} {write : α → Json} {read : Json → Option α} {as : List α}
    (h : ∀ a ∈ as, read (write a).written = some a) :
    list? read (Json.arr (as.map write)).written = some as := by
  rw [Json.written_arr, list?, List.map_map]
  exact mapM_of_forall h

/-- What may be missing is read as it was if it is there. -/
theorem orNull?_of_some {α : Type} {read : Json → Option α} {json : Json} {a : α}
    (h : read json = some a) (hnull : read .null = none) : orNull? read json = some (some a) := by
  cases json with
  | null => rw [hnull] at h; cases h
  | _ => exact congrArg (Option.map some) h

/-- A text that may be missing is read from what is written for it. -/
theorem orNull?_textToJson (text? : Option String) :
    orNull? d.text? (textToJson text?).written = some text? := by
  cases text? <;> rfl

/-- A value that may be missing is read from what is written for it. -/
theorem orNull?_valueToJson {v? : Option Value} (h : (valueToJson v?).FloatsReadBack) :
    orNull? (Value.ofJson? d) (valueToJson v?).written = some v? := by
  cases v? with
  | none => rfl
  | some v => exact orNull?_of_some (Value.ofJson?_written h) rfl

/-- A record whose keys are those that have a meaning is read field by field. -/
theorem exists_fields?_written {json : Json} {fields : List (String × Json)} (hjson : json = .obj fields)
    (keys : List String) (hkeys : fields.map (·.1) = keys) (hnodup : keys.Nodup) :
    ∃ found, json.written = .obj found ∧ d.fields? keys (.obj found) = some found ∧
      ∀ field ∈ fields, ∀ {α : Type} (absent? : Option α) (read : Json → Option α),
        field? found field.1 absent? read = read field.2.written := by
  have hfound : (fields.map fun field => (field.1, field.2.written)).map (·.1) = keys := by
    rw [List.map_map, ← hkeys]
    rfl
  refine ⟨fields.map fun field => (field.1, field.2.written), hjson ▸ Json.written_obj fields, ?_,
    fun field hmem _ absent? read => ?_⟩
  · have honce (key : String) :
        (fields.map fun field => (field.1, field.2.written)).countP (·.1 == key) ≤ 1 := by
      have hcount := List.nodup_iff_count_le_one.mp hnodup key
      rwa [← hfound, List.count_eq_countP, List.countP_map] at hcount
    exact if_pos (by simpa using fun key _ => honce key)
  · have hwritten : (field.1, field.2.written) ∈ fields.map fun field => (field.1, field.2.written) :=
      List.mem_map_of_mem hmem
    rw [field?, lookup_of_mem (hfound ▸ hnodup) hwritten]

end Dialect

/-! ### Parameters and settings -/

/-- A mode is read from its word. -/
theorem ExpandMode.ofJson?_written (mode : ExpandMode) :
    ExpandMode.ofJson? d (Json.str mode.word).written = some mode := by
  cases mode <;> cases d <;> decide

/-- A parameter is read as it was. -/
theorem Parameter.ofJson?_written {p : Parameter} (h : p.toJson.FloatsReadBack) :
    Parameter.ofJson? d p.toJson.written = some p := by
  obtain ⟨found, hobj, hfields, hread⟩ := Dialect.exists_fields?_written (d := d)
    (rfl : p.toJson = .obj _) Parameter.fieldNames rfl (by decide)
  simp only [List.forall_mem_cons] at hread
  obtain ⟨hname, hdescription, hlist, hmandatory, hfile, houtput, hdefault, hoptions, htype, hmode,
    hvalue, hinput, hresult, -⟩ := hread
  have hback := Json.floatsReadBack_obj.mp h
  simp only [List.forall_mem_cons] at hback
  obtain ⟨-, -, -, -, -, -, hbackDefault, hbackOptions, -⟩ := hback
  rw [Value.allToJson_eq_map, Json.floatsReadBack_arr, List.forall_mem_map] at hbackOptions
  have hall : Dialect.list? (Value.ofJson? d) (Json.arr (Value.allToJson p.options)).written =
      some p.options := by
    rw [Value.allToJson_eq_map]
    exact Dialect.list?_written fun v hv => Value.ofJson?_written (hbackOptions v hv)
  rw [hobj]
  refine bind_of_some hfields <| bind_of_some (hname _ _) <|
    bind_of_some ((hdescription _ _).trans (Dialect.orNull?_textToJson _)) <|
    bind_of_some (hlist _ _) <| bind_of_some (hmandatory _ _) <|
    bind_of_some (hfile _ _) <| bind_of_some (houtput _ _) <|
    bind_of_some ((hdefault _ _).trans (Dialect.orNull?_valueToJson hbackDefault)) <|
    bind_of_some ((hoptions _ _).trans hall) <|
    bind_of_some ((htype _ _).trans (Dialect.orNull?_textToJson _)) <|
    bind_of_some ((hmode _ _).trans (ExpandMode.ofJson?_written _)) <|
    bind_of_some ((hvalue _ _).trans (Dialect.orNull?_textToJson _)) <|
    bind_of_some (hinput _ _) <| bind_of_some (hresult _ _) rfl

/-- Settings are read as they were. -/
theorem Settings.ofJson?_written {s : Settings} (h : s.toJson.FloatsReadBack) :
    Settings.ofJson? d s.toJson.written = some s := by
  rw [Settings.toJson, Json.floatsReadBack_obj, List.forall_mem_map] at h
  rw [Settings.toJson, Json.written_obj, List.map_map, Settings.ofJson?]
  have hentries : ((s.entries.map ((fun field : String × Json => (field.1, field.2.written)) ∘
      fun entry => (entry.1, entry.2.toJson))).mapM fun field =>
        (Value.ofJson? d field.2).map (field.1, ·)) = some s.entries :=
    mapM_of_forall fun entry he => by
      rw [Function.comp_apply, Value.ofJson?_written (h entry he), Option.map_some]
  simp only [Option.bind_eq_bind]
  rw [hentries, Option.bind_some, Settings.ofList_entries]
  rfl

end

/-! ### Pipelines -/

section

variable {d : Dialect}

mutual

/-- A job is read as it was. -/
theorem Job.ofJson?_written : ∀ {job : Job}, job.toJson.FloatsReadBack →
    Job.ofJson? d job.toJson.written = some job
  | ⟨id, toolId, configuration, after, parameters, nested?⟩, h => by
    obtain ⟨found, hobj, hfields, hread⟩ := Dialect.exists_fields?_written (d := d)
      (rfl : Job.toJson ⟨id, toolId, configuration, after, parameters, nested?⟩ = .obj _)
      Job.fieldNames rfl (by decide)
    simp only [List.forall_mem_cons] at hread
    obtain ⟨hid, htool, hconfiguration, hafter, hparameters, hnested, -⟩ := hread
    rw [Job.toJson, Json.floatsReadBack_obj] at h
    simp only [List.forall_mem_cons] at h
    obtain ⟨-, -, hbackConfiguration, -, hbackParameters, hbackNested, -⟩ := h
    rw [Json.floatsReadBack_arr, List.forall_mem_map] at hbackParameters
    rw [hobj, Job.ofJson?, jobWith?, hfields]
    have hall : Dialect.list? d.text? (Json.arr (after.map .str)).written = some after :=
      Dialect.list?_written fun _ _ => rfl
    have heach : Dialect.list? (Parameter.ofJson? d)
        (Json.arr (parameters.map Parameter.toJson)).written = some parameters :=
      Dialect.list?_written fun p hp => Parameter.ofJson?_written (hbackParameters p hp)
    simp only [Option.bind_eq_bind, Option.bind_some, configurationIn?, parametersIn?, nestedIn?_eq,
      hid, htool, hconfiguration, hafter, hparameters, hnested, hall, heach,
      Settings.ofJson?_written hbackConfiguration, nestedOfJson?_written hbackNested]
    rfl

/-- The pipeline of a job is read as it was. -/
theorem nestedOfJson?_written : ∀ {nested? : Option (PipelineOf Job)},
    (nestedToJson nested?).FloatsReadBack →
      Dialect.orNull? (Pipeline.ofJson? d) (nestedToJson nested?).written = some nested?
  | none, _ => rfl
  | some ⟨configuration, parameters, jobs⟩, h => by
    obtain ⟨found, hobj, hfields, hread⟩ := Dialect.exists_fields?_written (d := d)
      (rfl : nestedToJson (some ⟨configuration, parameters, jobs⟩) = .obj _)
      Pipeline.fieldNames rfl (by decide)
    simp only [List.forall_mem_cons] at hread
    obtain ⟨hconfiguration, hparameters, hjobs, -⟩ := hread
    rw [nestedToJson, Json.floatsReadBack_obj] at h
    simp only [List.forall_mem_cons] at h
    obtain ⟨hbackConfiguration, hbackParameters, hbackJobs, -⟩ := h
    rw [Json.floatsReadBack_arr, List.forall_mem_map] at hbackParameters
    have heach : Dialect.list? (Parameter.ofJson? d)
        (Json.arr (parameters.map Parameter.toJson)).written = some parameters :=
      Dialect.list?_written fun p hp => Parameter.ofJson?_written (hbackParameters p hp)
    have hall : Dialect.list? (Job.ofJson? d) (Json.arr (jobsToJson jobs)).written = some jobs := by
      rw [Json.written_arr, Dialect.list?, ← jobsOfJson?_eq]
      exact jobsOfJson?_written (Json.floatsReadBack_arr.mp hbackJobs)
    refine Dialect.orNull?_of_some ?_ (by rw [Pipeline.ofJson?] <;> simp)
    rw [hobj, Pipeline.ofJson?, pipelineWith?, hfields]
    simp only [Option.bind_eq_bind, Option.bind_some, configurationIn?, parametersIn?, jobsIn?_eq,
      hconfiguration, hparameters, hjobs, heach, hall, Settings.ofJson?_written hbackConfiguration]
    rfl

/-- Jobs are read as they were. -/
theorem jobsOfJson?_written : ∀ {jobs : List Job}, (∀ item ∈ jobsToJson jobs, item.FloatsReadBack) →
    jobsOfJson? d ((jobsToJson jobs).map Json.written) = some jobs
  | [], _ => rfl
  | job :: jobs, h => by
    rw [jobsToJson] at h
    obtain ⟨hfirst, hrest⟩ := List.forall_mem_cons.mp h
    rw [jobsToJson, List.map_cons, jobsOfJson?, Job.ofJson?_written hfirst, jobsOfJson?_written hrest]
    rfl

end

namespace Pipeline

/-- A pipeline is read as it was, in whatever dialect. -/
theorem ofJson?_written {p : Pipeline} (h : p.toJson.FloatsReadBack) :
    Pipeline.ofJson? d p.toJson.written = some p := by
  have hnested : Dialect.orNull? (Pipeline.ofJson? d) (nestedToJson (some p)).written = some (some p) :=
    nestedOfJson?_written h
  rw [← Pipeline.toJson, Dialect.orNull?.eq_def] at hnested
  split at hnested
  next => cases hnested
  next =>
    obtain ⟨q, hq, heq⟩ := Option.map_eq_some_iff.mp hnested
    rw [hq, Option.some.inj heq]

end Pipeline

end

/-! ### Documents -/

/-- A reader of documents that finds in the text of this data what the text holds. Whatever else it takes
for a document, and whatever it makes of other texts, is left open. -/
def Json.IsReadBy (read? : String → Option Json) (json : Json) : Prop :=
  read? json.compact = some json.written

namespace Pipeline

/-- **A pipeline is read as it was written.** What the text of a pipeline holds has the same text, and it
is read as this pipeline, whatever lies in it and however deep, with all values of the kinds that they
were. So is the text itself, with whatever reader of documents that finds in the text what it holds.
Numbers that are not integers have to read as themselves from what is written for them. -/
theorem reads_back {p : Pipeline} (h : p.toJson.FloatsReadBack) :
    p.toJson.written.compact = p.toJson.compact ∧
    Pipeline.ofJson? .strict p.toJson.written = some p ∧
    ∀ read? : String → Option Json, p.toJson.IsReadBy read? →
      Pipeline.ofText read? p.toJson.compact = .ok p := by
  refine ⟨Json.compact_written _, ofJson?_written h, fun read? hread => ?_⟩
  rw [ofText, hread, Option.bind_some, ofJson?_written h]

/-- A dish with a pinch of salt, whose dough is kneaded twice. -/
def recipe : Pipeline where
  configuration := .ofList [("salt", .float ⟨4591870180066957722⟩)]
  jobs := [{
    id := "bake"
    nested? := some {
      configuration := .ofList [("knead", .list [.int 2, .list [.str "2"], .bool true])] } }]

/-- The dish as it is written. -/
def recipeText : String :=
  "\x7b\"configuration\":\x7b\"salt\":0.1\x7d,\"parameters\":[],\"jobs\":[\x7b\"id\":\"bake\"," ++
  "\"tool_id\":\"\",\"configuration\":\x7b\x7d,\"after\":[],\"parameters\":[],\"pipeline\":" ++
  "\x7b\"configuration\":\x7b\"knead\":[2,[\"2\"],true]\x7d,\"parameters\":[],\"jobs\":[]\x7d\x7d]\x7d"

/-- A reader that knows this text only. -/
def readRecipe? (text : String) : Option Json :=
  if text = recipeText then
    some <| .obj [
      ("configuration", .obj [("salt", .number "0.1")]),
      ("parameters", .arr []),
      ("jobs", .arr [.obj [
        ("id", .str "bake"),
        ("tool_id", .str ""),
        ("configuration", .obj []),
        ("after", .arr []),
        ("parameters", .arr []),
        ("pipeline", .obj [
          ("configuration", .obj [
            ("knead", .arr [.number "2", .arr [.str "2"], .bool true])]),
          ("parameters", .arr []),
          ("jobs", .arr [])])]])]
  else none

/-- The dish is read as it is, from the data of its text and from the text. -/
theorem recipe_reads_back : recipe.toJson.FloatsReadBack ∧ recipe.toJson.IsReadBy readRecipe? ∧
    Pipeline.ofJson? .strict recipe.toJson.written = some recipe ∧
    Pipeline.ofText readRecipe? recipeText = .ok recipe := by
  have hfloats : recipe.toJson.FloatsReadBack := by decide +kernel
  have htext : recipe.toJson.compact = recipeText := by decide +kernel
  have hread : recipe.toJson.IsReadBy readRecipe? := by
    rw [Json.IsReadBy, htext]
    exact if_pos rfl
  obtain ⟨-, hstrict, hdocument⟩ := reads_back hfloats
  exact ⟨hfloats, hread, hstrict, htext ▸ hdocument readRecipe? hread⟩

end Pipeline

end Pipework
