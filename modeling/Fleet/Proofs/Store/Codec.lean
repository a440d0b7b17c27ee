import Fleet.Document
import Fleet.Proofs.Json.Fields

/-!
# The stored form of documents

A process, a job, a dataset or a module is read back from its text as it was written
(`LawfulDocument`). Of a task this holds but for its qualities (`Task.decode_encode`): what is read of
them is the numbers that their texts denote, and where one has no text the document is none.

What reading makes of a document that is leased in no case is another key, another holder or another
answer to whether it goes back when the holder dies (`LawfulLeasable`). The holder can be read off a
stored text even where the text is no document (`holderIn_encode`).
-/

set_option autoImplicit false

namespace Fleet

open Json Json.Outline

/-! ## Names -/

instance : LawfulNamed ProcessKind := ⟨fun a => by cases a <;> rfl⟩

instance : LawfulNamed ProcessStatus := ⟨fun a => by cases a <;> rfl⟩

instance : LawfulNamed JobStatus := ⟨fun a => by cases a <;> rfl⟩

instance : LawfulNamed TaskStatus := ⟨fun a => by cases a <;> rfl⟩

instance : LawfulNamed TaskStage := ⟨fun a => by cases a <;> rfl⟩

instance : LawfulNamed DatasetStatus := ⟨fun a => by cases a <;> rfl⟩

instance : LawfulNamed ModuleKind := ⟨fun a => by cases a <;> rfl⟩

instance : LawfulNamed ModuleStatus := ⟨fun a => by cases a <;> rfl⟩

/-! ## Overrides -/

namespace Dict

variable {β : Type}

/-- An entry behind all others is added at the end. -/
theorem insertEntry_eq_append {key : String} {es : List (String × β)}
    (h : ∀ e ∈ es, e.1 < key) (value : β) : insertEntry key value es = es ++ [(key, value)] := by
  induction es with
  | nil => rfl
  | cons e es ih =>
    have he := h e List.mem_cons_self
    have hlt : ¬ key < e.1 := String.lt_asymm he
    have hne : key ≠ e.1 := fun heq => String.lt_irrefl key (by rw [← heq] at he; exact he)
    rw [insertEntry, if_neg hlt, if_neg hne, ih fun a ha => h a (List.mem_cons_of_mem e ha)]
    rfl

/-- The entries of a dictionary make the dictionary. -/
theorem ofList_entries (d : Dict β) : ofList d.entries = d := by
  -- the entries that were added come before those that are still to be
  have hfold (es : List (String × β)) (acc : Dict β)
      (hsorted : (acc.entries ++ es).Pairwise fun a b => a.1 < b.1) :
      (es.foldl (fun d e => d.insert e.1 e.2) acc).entries = acc.entries ++ es := by
    induction es generalizing acc with
    | nil => simp
    | cons e es ih =>
      have hlast : ∀ a ∈ acc.entries, a.1 < e.1 := fun a ha =>
        (List.pairwise_append.1 hsorted).2.2 a ha e List.mem_cons_self
      have hinsert : (acc.insert e.1 e.2).entries = acc.entries ++ [e] :=
        insertEntry_eq_append hlast e.2
      have happend : acc.entries ++ e :: es = (acc.insert e.1 e.2).entries ++ es := by
        rw [hinsert, List.append_assoc, List.singleton_append]
      rw [List.foldl_cons, ih _ (happend ▸ hsorted), happend]
  exact ext (hfold d.entries empty d.sorted)

end Dict

/-! ## Documents -/

/-- A process is read from its object field by field. -/
theorem Process.undoes : Undoes Process.ofJson? Process.toJson := by
  intro p o ho
  obtain ⟨os, rfl, hos⟩ := skimmed_object_iff.1 ho
  have hfields := hos.fields? (show ["id", "process-id", "host-id", "host-address", "start-time",
    "last-keepalive", "type", "resource", "status", "running-ordinal", "ordinal-claim"].Nodup by
      decide)
  -- one outline for each member, in the order in which they are written
  obtain ⟨id, _, rfl, hid, hos⟩ := hos.uncons
  obtain ⟨processId, _, rfl, hprocessId, hos⟩ := hos.uncons
  obtain ⟨hostId, _, rfl, hhostId, hos⟩ := hos.uncons
  obtain ⟨hostAddress, _, rfl, hhostAddress, hos⟩ := hos.uncons
  obtain ⟨startTime, _, rfl, hstartTime, hos⟩ := hos.uncons
  obtain ⟨lastKeepalive, _, rfl, hlastKeepalive, hos⟩ := hos.uncons
  obtain ⟨kind, _, rfl, hkind, hos⟩ := hos.uncons
  obtain ⟨resource, _, rfl, hresource, hos⟩ := hos.uncons
  obtain ⟨status, _, rfl, hstatus, hos⟩ := hos.uncons
  obtain ⟨runningOrdinal, _, rfl, hrunningOrdinal, hos⟩ := hos.uncons
  obtain ⟨ordinalClaim, _, rfl, hordinalClaim, hos⟩ := hos.uncons
  obtain rfl := hos.eq_nil
  simp only [List.map_cons, List.map_nil] at hfields
  simp only [ofJson?, hfields, required, undoes_text _ _ hid, undoes_natural32 _ _ hprocessId,
    undoes_text _ _ hhostId, undoes_text _ _ hhostAddress, undoes_natural _ _ hstartTime,
    undoes_natural _ _ hlastKeepalive, Named.undoes _ _ hkind, undoes_text _ _ hresource,
    Named.undoes _ _ hstatus, undoes_natural32 _ _ hrunningOrdinal,
    undoes_natural _ _ hordinalClaim]
  rfl

/-- A dataset is read from its object field by field. -/
theorem Dataset.undoes : Undoes Dataset.ofJson? Dataset.toJson := by
  intro d o ho
  obtain ⟨os, rfl, hos⟩ := skimmed_object_iff.1 ho
  have hfields := hos.fields? (show ["id", "user", "schema-in", "schema-out", "status",
    "process"].Nodup by decide)
  obtain ⟨id, _, rfl, hid, hos⟩ := hos.uncons
  obtain ⟨user, _, rfl, huser, hos⟩ := hos.uncons
  obtain ⟨schemaIn, _, rfl, hschemaIn, hos⟩ := hos.uncons
  obtain ⟨schemaOut, _, rfl, hschemaOut, hos⟩ := hos.uncons
  obtain ⟨status, _, rfl, hstatus, hos⟩ := hos.uncons
  obtain ⟨process, _, rfl, hprocess, hos⟩ := hos.uncons
  obtain rfl := hos.eq_nil
  simp only [List.map_cons, List.map_nil] at hfields
  simp only [ofJson?, hfields, required, omissible, undoes_text _ _ hid, undoes_text _ _ huser,
    undoes_text _ _ hschemaIn, undoes_text _ _ hschemaOut, Named.undoes _ _ hstatus,
    undoes_text.option rfl _ _ hprocess]
  rfl

/-- A module is read from its object field by field. -/
theorem Module.undoes : Undoes Module.ofJson? Module.toJson := by
  intro m o ho
  obtain ⟨os, rfl, hos⟩ := skimmed_object_iff.1 ho
  have hfields := hos.fields? (show ["id", "user", "type", "schema-in", "schema-out",
    "config-space", "status", "process"].Nodup by decide)
  -- each member of the object was skimmed from the value that was written for it
  obtain ⟨id, _, rfl, hid, hos⟩ := hos.uncons
  obtain ⟨user, _, rfl, huser, hos⟩ := hos.uncons
  obtain ⟨kind, _, rfl, hkind, hos⟩ := hos.uncons
  obtain ⟨schemaIn, _, rfl, hschemaIn, hos⟩ := hos.uncons
  obtain ⟨schemaOut, _, rfl, hschemaOut, hos⟩ := hos.uncons
  obtain ⟨configSpace, _, rfl, hconfigSpace, hos⟩ := hos.uncons
  obtain ⟨status, _, rfl, hstatus, hos⟩ := hos.uncons
  obtain ⟨process, _, rfl, hprocess, hos⟩ := hos.uncons
  obtain rfl := hos.eq_nil
  simp only [List.map_cons, List.map_nil] at hfields
  simp only [ofJson?, hfields, required, omissible, undoes_text _ _ hid, undoes_text _ _ huser,
    Named.undoes _ _ hkind, undoes_text _ _ hschemaIn, undoes_text _ _ hschemaOut,
    undoes_text _ _ hconfigSpace, Named.undoes _ _ hstatus, undoes_text.option rfl _ _ hprocess]
  rfl

/-- Overrides are written as an object and read back as one. -/
theorem Job.undoes_overrides : Undoes overrides? fun d : Overrides =>
    .object (d.entries.map fun e => (e.1, .text e.2)) := by
  intro d o ho
  obtain ⟨os, rfl, hos⟩ := skimmed_object_iff.1 ho
  -- the entries come back in their order, and no key comes twice
  have hentries (es : List (String × String)) (os : List (Except Fault String × Outline))
      (hos : SkimmedMembers (es.map fun e => (e.1, .text e.2)) os) :
      ∃ members, Outline.members? (.object os) = some members ∧
        members.mapM override? = some es := by
    refine ⟨_, hos.members?, ?_⟩
    induction es generalizing os with
    | nil => rfl
    | cons e es ih =>
      obtain ⟨o, rest, rfl, ho, hrest⟩ := hos.uncons
      rw [List.map_cons, List.map_cons, List.map_cons, List.zip_cons_cons, List.mapM_cons,
        override?, skimmed_text_iff.1 ho, ih rest hrest]
      rfl
  obtain ⟨members, hmembers, hread⟩ := hentries d.entries os hos
  rw [overrides?, hmembers]
  simp only [bind, Option.bind, pure, hread, Dict.ofList_entries]

/-- A job is read from its object field by field, the times in two objects of their own. -/
theorem Job.undoes : Undoes Job.ofJson? Job.toJson := by
  intro j o ho
  obtain ⟨os, rfl, hos⟩ := skimmed_object_iff.1 ho
  have hfields := hos.fields? (show ["id", "user", "dataset", "models", "config-space",
    "config-overrides", "accept-new-models", "objective", "alt-objectives", "max-tasks",
    "creation-time", "running-time", "running-duration", "pause-start-time", "pause-duration",
    "prev-pause-duration", "status", "status-message", "process"].Nodup by decide)
  -- one member for each field, in the order in which they are written
  obtain ⟨id, _, rfl, hid, hos⟩ := hos.uncons
  obtain ⟨user, _, rfl, huser, hos⟩ := hos.uncons
  obtain ⟨dataset, _, rfl, hdataset, hos⟩ := hos.uncons
  obtain ⟨models, _, rfl, hmodels, hos⟩ := hos.uncons
  obtain ⟨configSpace, _, rfl, hconfigSpace, hos⟩ := hos.uncons
  obtain ⟨configOverrides, _, rfl, hconfigOverrides, hos⟩ := hos.uncons
  obtain ⟨acceptNewModels, _, rfl, hacceptNewModels, hos⟩ := hos.uncons
  obtain ⟨objective, _, rfl, hobjective, hos⟩ := hos.uncons
  obtain ⟨altObjectives, _, rfl, haltObjectives, hos⟩ := hos.uncons
  obtain ⟨maxTasks, _, rfl, hmaxTasks, hos⟩ := hos.uncons
  obtain ⟨creationTime, _, rfl, hcreationTime, hos⟩ := hos.uncons
  obtain ⟨runningTime, _, rfl, hrunningTime, hos⟩ := hos.uncons
  obtain ⟨runningDuration, _, rfl, hrunningDuration, hos⟩ := hos.uncons
  obtain ⟨pauseStartTime, _, rfl, hpauseStartTime, hos⟩ := hos.uncons
  obtain ⟨pauseDuration, _, rfl, hpauseDuration, hos⟩ := hos.uncons
  obtain ⟨prevPauseDuration, _, rfl, hprevPauseDuration, hos⟩ := hos.uncons
  obtain ⟨status, _, rfl, hstatus, hos⟩ := hos.uncons
  obtain ⟨statusMessage, _, rfl, hstatusMessage, hos⟩ := hos.uncons
  obtain ⟨process, _, rfl, hprocess, hos⟩ := hos.uncons
  obtain rfl := hos.eq_nil
  simp only [List.map_cons, List.map_nil] at hfields
  simp only [ofJson?, hfields, required, omissible, defaulting, undoes_text _ _ hid,
    undoes_text _ _ huser, undoes_text _ _ hdataset, undoes_texts _ _ hmodels,
    undoes_text _ _ hconfigSpace, undoes_overrides _ _ hconfigOverrides,
    undoes_boolean _ _ hacceptNewModels, undoes_text _ _ hobjective,
    undoes_texts _ _ haltObjectives, undoes_natural _ _ hmaxTasks, undoes_natural _ _ hcreationTime,
    undoes_interval _ _ hrunningTime, undoes_natural _ _ hrunningDuration,
    undoes_natural.option rfl _ _ hpauseStartTime, undoes_natural _ _ hpauseDuration,
    undoes_natural _ _ hprevPauseDuration, Named.undoes _ _ hstatus, undoes_text _ _ hstatusMessage,
    undoes_text.option rfl _ _ hprocess]
  rfl

/-! ## Tasks -/

namespace Task

/-- The times of the stages are three intervals. -/
theorem undoes_stageTimes : Undoes stageTimes? ofStageTimes := by
  intro t o ho
  obtain ⟨os, rfl, hos⟩ := skimmed_object_iff.1 ho
  have hfields := hos.fields? (show ["training", "predicting", "evaluating"].Nodup by decide)
  obtain ⟨training, _, rfl, htraining, hos⟩ := hos.uncons
  obtain ⟨predicting, _, rfl, hpredicting, hos⟩ := hos.uncons
  obtain ⟨evaluating, _, rfl, hevaluating, hos⟩ := hos.uncons
  obtain rfl := hos.eq_nil
  simp only [List.map_cons, List.map_nil] at hfields
  simp only [stageTimes?, hfields, required, undoes_interval _ _ htraining,
    undoes_interval _ _ hpredicting, undoes_interval _ _ hevaluating]
  rfl

/-- The durations of the stages are three numbers. -/
theorem undoes_stageDurations : Undoes stageDurations? ofStageDurations := by
  intro d o ho
  obtain ⟨os, rfl, hos⟩ := skimmed_object_iff.1 ho
  have hfields := hos.fields? (show ["training", "predicting", "evaluating"].Nodup by decide)
  obtain ⟨training, _, rfl, htraining, hos⟩ := hos.uncons
  obtain ⟨predicting, _, rfl, hpredicting, hos⟩ := hos.uncons
  obtain ⟨evaluating, _, rfl, hevaluating, hos⟩ := hos.uncons
  obtain rfl := hos.eq_nil
  simp only [List.map_cons, List.map_nil] at hfields
  simp only [stageDurations?, hfields, required, undoes_natural _ _ htraining,
    undoes_natural _ _ hpredicting, undoes_natural _ _ hevaluating]
  rfl

/-- The task with the qualities that four outlines denote, if all of them denote some. -/
def withQualities? (t : Task) (quality qualityTrain qualityExpected altQualities : Outline) :
    Option Task := do
  return { t with
    quality := ← float? quality
    qualityTrain := ← float? qualityTrain
    qualityExpected := ← float? qualityExpected
    altQualities := ← list? float? altQualities }

/-- Reading the outline of a task is reading its qualities; all else is as it was. -/
theorem ofJson?_of_skimmed {t : Task} {o : Outline} (ho : Skimmed t.toJson o) :
    ∃ quality qualityTrain qualityExpected altQualities,
      Skimmed (ofFloat t.quality) quality ∧ Skimmed (ofFloat t.qualityTrain) qualityTrain ∧
      Skimmed (ofFloat t.qualityExpected) qualityExpected ∧
      Skimmed (ofList ofFloat t.altQualities) altQualities ∧
      ofJson? o = t.withQualities? quality qualityTrain qualityExpected altQualities := by
  obtain ⟨os, rfl, hos⟩ := skimmed_object_iff.1 ho
  have hfields := hos.fields? (show ["id", "job", "process", "user", "dataset", "model",
    "objective", "alt-objectives", "config", "quality", "quality-train", "quality-expected",
    "alt-qualities", "status", "status-message", "stage", "stage-times", "stage-durations",
    "creation-time", "running-duration"].Nodup by decide)
  obtain ⟨id, _, rfl, hid, hos⟩ := hos.uncons
  obtain ⟨job, _, rfl, hjob, hos⟩ := hos.uncons
  obtain ⟨process, _, rfl, hprocess, hos⟩ := hos.uncons
  obtain ⟨user, _, rfl, huser, hos⟩ := hos.uncons
  obtain ⟨dataset, _, rfl, hdataset, hos⟩ := hos.uncons
  obtain ⟨model, _, rfl, hmodel, hos⟩ := hos.uncons
  obtain ⟨objective, _, rfl, hobjective, hos⟩ := hos.uncons
  obtain ⟨altObjectives, _, rfl, haltObjectives, hos⟩ := hos.uncons
  obtain ⟨config, _, rfl, hconfig, hos⟩ := hos.uncons
  obtain ⟨quality, _, rfl, hquality, hos⟩ := hos.uncons
  obtain ⟨qualityTrain, _, rfl, hqualityTrain, hos⟩ := hos.uncons
  obtain ⟨qualityExpected, _, rfl, hqualityExpected, hos⟩ := hos.uncons
  obtain ⟨altQualities, _, rfl, haltQualities, hos⟩ := hos.uncons
  obtain ⟨status, _, rfl, hstatus, hos⟩ := hos.uncons
  obtain ⟨statusMessage, _, rfl, hstatusMessage, hos⟩ := hos.uncons
  obtain ⟨stage, _, rfl, hstage, hos⟩ := hos.uncons
  obtain ⟨stageTimes, _, rfl, hstageTimes, hos⟩ := hos.uncons
  obtain ⟨stageDurations, _, rfl, hstageDurations, hos⟩ := hos.uncons
  obtain ⟨creationTime, _, rfl, hcreationTime, hos⟩ := hos.uncons
  obtain ⟨runningDuration, _, rfl, hrunningDuration, hos⟩ := hos.uncons
  obtain rfl := hos.eq_nil
  simp only [List.map_cons, List.map_nil] at hfields
  -- nothing is said of the outlines of the qualities, so four reads are left
  refine ⟨quality, qualityTrain, qualityExpected, altQualities, hquality, hqualityTrain,
    hqualityExpected, haltQualities, ?_⟩
  simp only [ofJson?, hfields, required, omissible, withQualities?, undoes_text _ _ hid,
    undoes_text _ _ hjob, undoes_text.option rfl _ _ hprocess, undoes_text _ _ huser,
    undoes_text _ _ hdataset, undoes_text _ _ hmodel, undoes_text _ _ hobjective,
    undoes_texts _ _ haltObjectives, undoes_text _ _ hconfig, Named.undoes _ _ hstatus,
    undoes_text _ _ hstatusMessage, Named.undoes _ _ hstage, undoes_stageTimes _ _ hstageTimes,
    undoes_stageDurations _ _ hstageDurations, undoes_natural _ _ hcreationTime,
    undoes_natural _ _ hrunningDuration]
  rfl

end Task

/-! ## Laws of documents -/

/-- Documents that are read back as they were written. -/
class LawfulDocument (D : Type) [Document D] : Prop where
  decode_encode : ∀ d : D, Document.decode (Document.encode d) = .ok d

namespace Document

variable {D : Type} [Document D]

/-- Decoding what was encoded is reading an outline of it. -/
theorem exists_decode_encode (d : D) :
    ∃ o, Skimmed (toJson d) o ∧ (decode (encode d) : Except StateError D) =
      (ofJson? o).elim (.error (.deserialize ("not a " ++ kind D))) .ok := by
  obtain ⟨o, ho, hskim⟩ := exists_skim_render (toJson d)
  refine ⟨o, ho, ?_⟩
  simp only [decode, encode, hskim]
  cases (ofJson? o : Option D) <;> rfl

/-- What cannot be decoded is said to be so. -/
theorem exists_of_decode_eq_error {text : String} {e : StateError}
    (h : decode (D := D) text = .error e) : ∃ message, e = .deserialize message := by
  unfold decode at h
  split at h
  · cases h
    exact ⟨_, rfl⟩
  · split at h <;> cases h
    exact ⟨_, rfl⟩

/-- What undoes the object of a document undoes its text. -/
theorem decode_encode_of_undoes (h : Undoes (ofJson? : Outline → Option D) toJson) (d : D) :
    decode (encode d) = .ok d := by
  obtain ⟨o, ho, hdecode⟩ := exists_decode_encode d
  rw [hdecode, h d o ho, Option.elim_some]

end Document

instance : LawfulDocument Process := ⟨Document.decode_encode_of_undoes Process.undoes⟩

instance : LawfulDocument Job := ⟨Document.decode_encode_of_undoes Job.undoes⟩

instance : LawfulDocument Dataset := ⟨Document.decode_encode_of_undoes Dataset.undoes⟩

instance : LawfulDocument Module := ⟨Document.decode_encode_of_undoes Module.undoes⟩

/-- A task is read back with other qualities at most. -/
theorem Task.of_decode_encode {t t' : Task} (h : Document.decode (Document.encode t) = .ok t') :
    ∃ quality qualityTrain qualityExpected altQualities,
      t' = { t with quality, qualityTrain, qualityExpected, altQualities } := by
  obtain ⟨o, ho, hdecode⟩ := Document.exists_decode_encode t
  obtain ⟨a, b, c, d, -, -, -, -, hread⟩ := ofJson?_of_skimmed ho
  have hread : Document.ofJson? o = t.withQualities? a b c d := hread
  rw [hdecode, hread] at h
  unfold withQualities? at h
  cases ha : float? a <;> cases hb : float? b <;> cases hc : float? c <;>
    cases hd : list? float? d <;> simp [ha, hb, hc, hd] at h
  exact ⟨_, _, _, _, h.symm⟩

/-- Documents whose key is read back, whatever else is. -/
class LawfulKey (D : Type) [Document D] : Prop where
  key_of_decode : ∀ d d' : D, Document.decode (Document.encode d) = .ok d' →
    Document.key d' = Document.key d

instance {D : Type} [Document D] [LawfulDocument D] : LawfulKey D where
  key_of_decode d d' h := by
    rw [LawfulDocument.decode_encode, Except.ok.injEq] at h
    rw [h]

instance : LawfulKey Task where
  key_of_decode t t' h := by
    obtain ⟨_, _, _, _, rfl⟩ := Task.of_decode_encode h
    rfl

namespace Task

def qualities (t : Task) : List Binary64 :=
  t.quality :: t.qualityTrain :: t.qualityExpected :: t.altQualities

/-- One quality that is not finite spoils the list. -/
theorem floats?_eq_none {xs : List Binary64} {x : Binary64} (hmem : x ∈ xs)
    (hx : x.isFinite = false) {os : List Outline} (hos : SkimmedItems (xs.map ofFloat) os) :
    os.mapM float? = none := by
  induction xs generalizing os with
  | nil => cases hmem
  | cons y ys ih =>
    cases hos with
    | @cons _ o _ os ho hos =>
      rw [List.mapM_cons]
      rcases List.mem_cons.1 hmem with rfl | hmem
      · rw [float?_eq_none hx ho]
        rfl
      · rw [ih hmem hos]
        cases float? o <;> rfl

/-- Finite qualities come back as their numerals are read. -/
theorem floats?_of_skimmed {xs : List Binary64} (hxs : ∀ x ∈ xs, x.isFinite = true)
    {os : List Outline} (hos : SkimmedItems (xs.map ofFloat) os) :
    os.mapM float? = some (xs.map Binary64.reread) := by
  induction xs generalizing os with
  | nil =>
    cases hos
    rfl
  | cons x xs ih =>
    cases hos with
    | cons ho hos =>
      rw [List.mapM_cons, float?_of_skimmed (hxs x List.mem_cons_self) ho,
        ih (fun y hy => hxs y (List.mem_cons_of_mem x hy)) hos]
      rfl

/-- The task with the qualities that a reader makes of their texts. -/
def reread (t : Task) : Task :=
  { t with
    quality := t.quality.reread
    qualityTrain := t.qualityTrain.reread
    qualityExpected := t.qualityExpected.reread
    altQualities := t.altQualities.map Binary64.reread }

/-- A task one of whose qualities has no JSON text is not read back at all. -/
theorem decode_encode_of_not_isFinite {t : Task} {x : Binary64} (hmem : x ∈ t.qualities)
    (hx : x.isFinite = false) :
    Document.decode (D := Task) (Document.encode t) = .error (.deserialize "not a task") := by
  obtain ⟨o, ho, hdecode⟩ := Document.exists_decode_encode t
  obtain ⟨a, b, c, d, ha, hb, hc, hd, hread⟩ := ofJson?_of_skimmed ho
  have hread : Document.ofJson? o = t.withQualities? a b c d := hread
  have hnone : t.withQualities? a b c d = none := by
    unfold withQualities?
    simp only [qualities, List.mem_cons] at hmem
    -- whatever the reads before the failing one yield
    rcases hmem with rfl | rfl | rfl | hmem
    · rw [float?_eq_none hx ha]
      rfl
    · rw [float?_eq_none hx hb]
      cases float? a <;> rfl
    · rw [float?_eq_none hx hc]
      cases float? a <;> cases float? b <;> rfl
    · obtain ⟨ds, rfl, hds⟩ := skimmed_array_iff.1 hd
      rw [list?, floats?_eq_none hmem hx hds]
      cases float? a <;> cases float? b <;> cases float? c <;> rfl
  rw [hdecode, hread, hnone]
  rfl

/-- A task with finite qualities is read back, its qualities as their texts are read. -/
theorem decode_encode_of_isFinite {t : Task} (h : ∀ x ∈ t.qualities, x.isFinite = true) :
    Document.decode (Document.encode t) = .ok t.reread := by
  obtain ⟨o, ho, hdecode⟩ := Document.exists_decode_encode t
  obtain ⟨a, b, c, d, ha, hb, hc, hd, hread⟩ := ofJson?_of_skimmed ho
  have hread : Document.ofJson? o = t.withQualities? a b c d := hread
  simp only [qualities, List.forall_mem_cons] at h
  obtain ⟨hquality, hqualityTrain, hqualityExpected, haltQualities⟩ := h
  obtain ⟨ds, rfl, hds⟩ := skimmed_array_iff.1 hd
  have hsome : t.withQualities? a b c (.array ds) = some t.reread := by
    unfold withQualities?
    rw [float?_of_skimmed hquality ha, float?_of_skimmed hqualityTrain hb,
      float?_of_skimmed hqualityExpected hc, list?, floats?_of_skimmed haltQualities hds]
    rfl
  rw [hdecode, hread, hsome, Option.elim_some]

/-- **Which tasks are read back.** A stored task is read if and only if its qualities are finite. -/
theorem decode_encode (t : Task) :
    Document.decode (Document.encode t) =
      if ∀ x ∈ t.qualities, x.isFinite = true then .ok t.reread
      else .error (.deserialize "not a task") := by
  split
  case isTrue h => exact decode_encode_of_isFinite h
  case isFalse h =>
    obtain ⟨x, hmem, hx⟩ : ∃ x ∈ t.qualities, x.isFinite = false := by simpa using h
    exact decode_encode_of_not_isFinite hmem hx

end Task

/-! ## Holders -/

/-- What a text that is an object has as its text member of a name. -/
def Json.textMember? (name text : String) : Option String :=
  match skim text with
  | .ok o => do
    let members ← o.members?
    let member ← only? members name
    member.bind text?
  | .error _ => none

/-- Where no name comes twice each name is found with its value. -/
theorem Json.SkimmedMembers.only? {vs : List (String × Value)}
    {os : List (Except Fault String × Outline)} (h : SkimmedMembers vs os)
    (hnames : (vs.map Prod.fst).Nodup) {name : String} {v : Value} (hmem : (name, v) ∈ vs) :
    ∃ o, Skimmed v o ∧
      Outline.only? ((vs.map Prod.fst).zip (os.map Prod.snd)) name = some (some o) := by
  match vs, os, h with
  | _, _, @SkimmedMembers.cons other w o vs os ho hos =>
    obtain ⟨hother, hnames⟩ := List.nodup_cons.1 hnames
    simp only [List.map_cons, List.zip_cons_cons]
    -- the name is that of the first member, or of one behind it
    rcases List.mem_cons.1 hmem with heq | hmem
    · cases heq
      refine ⟨o, ho, only?_cons_self o ?_⟩
      rintro ⟨_, _⟩ hm rfl
      exact hother (List.of_mem_zip hm).1
    · obtain ⟨o', ho', honly⟩ := hos.only? hnames hmem
      refine ⟨o', ho', ?_⟩
      have hne : other ≠ name := by
        rintro rfl
        exact hother (List.mem_map.2 ⟨_, hmem, rfl⟩)
      rw [only?_cons_of_ne hne o, honly]

/-- An optional text of a printed object is there for whoever looks for its name. -/
theorem Json.textMember?_render {vs : List (String × Value)} (hnames : (vs.map Prod.fst).Nodup)
    {name : String} {text : Option String} (hmem : (name, ofText? text) ∈ vs) :
    textMember? name (Value.render (.object vs)) = text := by
  obtain ⟨o, ho, hskim⟩ := exists_skim_render (.object vs)
  obtain ⟨os, rfl, hos⟩ := skimmed_object_iff.1 ho
  obtain ⟨o, ho, honly⟩ := hos.only? hnames hmem
  simp only [textMember?, hskim, hos.members?, honly, bind, Option.bind_some]
  cases text with
  | none => rw [skimmed_null_iff.1 ho]; rfl
  | some s => rw [skimmed_text_iff.1 ho]; rfl

/-- Objects that are printed alike have the same member of a name. -/
theorem Json.Undoes.eq_of_render {α : Type} {read : Outline → Option α} {write : α → Value}
    (h : Undoes read write) {vs ws : List (String × Value)} (hvs : (vs.map Prod.fst).Nodup)
    (hws : (ws.map Prod.fst).Nodup) (name : String) {a b : α} (ha : (name, write a) ∈ vs)
    (hb : (name, write b) ∈ ws)
    (htext : Value.render (.object vs) = Value.render (.object ws)) : a = b := by
  obtain ⟨o, ho, hskim⟩ := exists_skim_render (.object vs)
  obtain ⟨o', ho', hskim'⟩ := exists_skim_render (.object ws)
  obtain ⟨os, rfl, hos⟩ := skimmed_object_iff.1 ho
  obtain ⟨os', rfl, hos'⟩ := skimmed_object_iff.1 ho'
  -- one text has one outline, and in it one member of the name
  rw [htext, hskim', Except.ok.injEq] at hskim
  obtain ⟨x, hx, hfind⟩ := hos.only? hvs ha
  obtain ⟨y, hy, hfind'⟩ := hos'.only? hws hb
  have hmembers := hos'.members?
  rw [hskim, hos.members?, Option.some.injEq] at hmembers
  rw [hmembers, hfind', Option.some.injEq, Option.some.injEq] at hfind
  subst hfind
  exact Option.some.inj ((h a y hx).symm.trans (h b y hy))

/-- The holder that a stored text names. -/
def holderIn (text : String) : Option String := textMember? "process" text

/-- A stored text says that the work on the document failed. -/
def failedIn (text : String) : Bool := textMember? "status" text == some "error"

/-- Documents with a holder that neither writing nor bringing up to date loses. -/
class LawfulLeasable (D : Type) [Leasable D] : Prop where
  key_withHolder : ∀ (holder : Option String) (d : D),
    Document.key (Leasable.withHolder holder d) = Document.key d
  holder_withHolder : ∀ (holder : Option String) (d : D),
    Leasable.holder (Leasable.withHolder holder d) = holder
  key_refresh : ∀ (now : Millis) (d : D), Document.key (Document.refresh now d) = Document.key d
  holderIn_encode : ∀ d : D, holderIn (Document.encode d) = Leasable.holder d
  failedIn_encode : ∀ d : D, failedIn (Document.encode d) = !Leasable.releasable d
  holder_of_decode : ∀ d d' : D, Document.decode (Document.encode d) = .ok d' →
    Leasable.holder d' = Leasable.holder d
  releasable_of_decode : ∀ d d' : D, Document.decode (Document.encode d) = .ok d' →
    Leasable.releasable d' = Leasable.releasable d

instance : LawfulLeasable Job where
  key_withHolder _ _ := rfl
  holder_withHolder _ _ := rfl
  key_refresh _ _ := rfl
  holderIn_encode j := textMember?_render (by simp) (by simp [Leasable.holder])
  failedIn_encode j := by
    have hstatus : textMember? "status" (Document.encode j) = some (Named.name j.status) :=
      textMember?_render (by simp) (by simp [ofText?, ofOption, Named.toJson])
    rw [failedIn, hstatus]
    simp only [Leasable.releasable]
    cases j.status <;> rfl
  holder_of_decode j j' h := by
    rw [LawfulDocument.decode_encode, Except.ok.injEq] at h
    rw [h]
  releasable_of_decode j j' h := by
    rw [LawfulDocument.decode_encode, Except.ok.injEq] at h
    rw [h]

instance : LawfulLeasable Dataset where
  key_withHolder _ _ := rfl
  holder_withHolder _ _ := rfl
  key_refresh _ _ := rfl
  holderIn_encode d := textMember?_render (by simp) (by simp [Leasable.holder])
  failedIn_encode d := by
    have hstatus : textMember? "status" (Document.encode d) = some (Named.name d.status) :=
      textMember?_render (by simp) (by simp [ofText?, ofOption, Named.toJson])
    rw [failedIn, hstatus]
    simp only [Leasable.releasable]
    cases d.status <;> rfl
  holder_of_decode d d' h := by
    rw [LawfulDocument.decode_encode, Except.ok.injEq] at h
    rw [h]
  releasable_of_decode d d' h := by
    rw [LawfulDocument.decode_encode, Except.ok.injEq] at h
    rw [h]

instance : LawfulLeasable Module where
  key_withHolder _ _ := rfl
  holder_withHolder _ _ := rfl
  key_refresh _ _ := rfl
  holderIn_encode m := textMember?_render (by simp) (by simp [Leasable.holder])
  failedIn_encode m := by
    have hstatus : textMember? "status" (Document.encode m) = some (Named.name m.status) :=
      textMember?_render (by simp) (by simp [ofText?, ofOption, Named.toJson])
    rw [failedIn, hstatus]
    simp only [Leasable.releasable]
    cases m.status <;> rfl
  holder_of_decode m m' h := by
    rw [LawfulDocument.decode_encode, Except.ok.injEq] at h
    rw [h]
  releasable_of_decode m m' h := by
    rw [LawfulDocument.decode_encode, Except.ok.injEq] at h
    rw [h]

instance : LawfulLeasable Task where
  key_withHolder _ _ := rfl
  holder_withHolder _ _ := rfl
  key_refresh _ _ := rfl
  holderIn_encode t := textMember?_render (by simp) (by simp [Leasable.holder])
  failedIn_encode t := by
    have hstatus : textMember? "status" (Document.encode t) = some (Named.name t.status) :=
      textMember?_render (by simp) (by simp [ofText?, ofOption, Named.toJson])
    rw [failedIn, hstatus]
    simp only [Leasable.releasable]
    cases t.status <;> rfl
  holder_of_decode t t' h := by
    obtain ⟨_, _, _, _, rfl⟩ := Task.of_decode_encode h
    rfl
  releasable_of_decode t t' h := by
    obtain ⟨_, _, _, _, rfl⟩ := Task.of_decode_encode h
    rfl

end Fleet
