import YamlLocator.CommandLine

/-!
# How a Query Ends

A lookup takes five steps that can each end it, and the command line turns the way in which it
ended into an exit status and one message. The same reason can end it at two steps: a file may be
missing when it is read, and it may be missing by the time its absolute path is asked for. This
module says which answers of the file system, which contents and which paths lead to which end.

`Course` lists the ways through a lookup, with what the file system answered on each. Every lookup
takes one of them (`exists_course`), and a course settles the result (`lookup_of_course`), so that
everything about a query is a look at six cases. A course knows nothing of the options; the only
thing that depends on them is the column of a location. Hence the status and the messages are the
same for all options.

A text that is no key path ends the lookup before anything is asked of the file system. This is
said for file systems with effects of any kind: the query has no effect at all then.

## Main definitions

* `KeyPath.IsMalformed`: A text is no key path.
* `FailsAsMissing`, `FailsOtherwise`: Answers of a file system that are errors.
* `FindsKey`: A file holds a document in which there is a key for a path.
* `Course`: The ways through a lookup.
* `Query.Complaint`: The message of a query that does not succeed.

## Theorems

* `KeyPath.parse_of_isMalformed`, `KeyPath.exists_parse_of_not_isMalformed`: Reading a path.
* `exists_course`, `lookup_of_course`: Every lookup takes a course, which settles its result.
* `Query.run_of_course`: The outcome of a query from its course.
* `Query.status_eq_iff`: A query ends with a status exactly if there is a reason for it.
* `Query.status_and_errors_eq`: What the options do not change.
* `Query.run_outcome`: The exit status and the streams of a query.
-/

namespace YamlLocator

namespace KeyPath

/-- One of the segments of the text is empty, as is the only segment of an empty text. -/
def IsMalformed (text : String) : Prop := [] ∈ Text.pieces separator text.toList

instance (text : String) : Decidable (IsMalformed text) := inferInstanceAs (Decidable (_ ∈ _))

/-- Reading a text that is no path fails, and the error shows the text. -/
theorem parse_of_isMalformed {text : String} (h : IsMalformed text) :
    ∃ fault, parse text = .error { text, fault } := by
  by_cases hempty : text = ""
  · exact ⟨.noSegment, by rw [parse, if_pos hempty]⟩
  · have hne : segmentsOf text ≠ [] := by
      rw [segmentsOf, ne_eq, List.map_eq_nil_iff]
      exact Text.pieces_ne_nil separator text.toList
    have hsegment : ¬ ∀ segment ∈ segmentsOf text, segment ≠ "" :=
      fun hall => hall "" (List.mem_map.mpr ⟨[], h, rfl⟩) rfl
    refine ⟨.emptySegment, ?_⟩
    rw [parse, if_neg hempty, ofSegments, dif_pos hne, dif_neg hsegment, joined_segments_of_text]

/-- Reading any other text gives the path with its segments. -/
theorem exists_parse_of_not_isMalformed {text : String} (h : ¬ IsMalformed text) :
    ∃ path, parse text = .ok path ∧ path.segments = segmentsOf text := by
  have hempty : text ≠ "" := by
    rintro rfl
    exact h List.mem_cons_self
  have hne : segmentsOf text ≠ [] := by
    rw [segmentsOf, ne_eq, List.map_eq_nil_iff]
    exact Text.pieces_ne_nil separator text.toList
  have hsegment : ∀ segment ∈ segmentsOf text, segment ≠ "" := by
    rintro segment hsegment rfl
    rcases List.mem_map.mp hsegment with ⟨piece, hpiece, heq⟩
    rw [String.ofList_eq_empty_iff] at heq
    rw [heq] at hpiece
    exact h hpiece
  refine ⟨⟨segmentsOf text, hne, hsegment⟩, ?_, rfl⟩
  rw [parse, if_neg hempty, ofSegments, dif_pos hne, dif_pos hsegment]

/-- Of these texts only the first one is a path. -/
example : ["a.b", "", ".", "a.", ".b", "a..b"].map (fun text => decide (IsMalformed text)) =
    [false, true, true, true, true, true] := by
  decide

end KeyPath

/-! ### What decides about a lookup -/

/-- The answer is that there is no such file. -/
def FailsAsMissing (answer : Id (Except FileError String)) : Prop :=
  ∃ e, answer = pure (.error e) ∧ e.kind = .notFound

/-- The answer is any other error. -/
def FailsOtherwise (answer : Id (Except FileError String)) : Prop :=
  ∃ e, answer = pure (.error e) ∧ e.kind ≠ .notFound

/-- The file can be read as a text that holds a document, and in the document there is a key for
    the path: the one that it addresses, or the last one on the way to it. -/
def FindsKey (files : FileAccess Id) (file keyPath text : String) (found : KeyMatch) : Prop :=
  files.read file = pure (.ok text) ∧
    ∃ root, Yaml.Document.parse text = .ok root ∧
      root.bind (Yaml.Node.locate (KeyPath.segmentsOf keyPath)) = some found

/-- The ways through a lookup, with the result for either option. -/
inductive Course (files : FileAccess Id) (file keyPath : String) :
    (Bool → Except LookupError (Option Location)) → Prop
  /-- The path is no key path. -/
  | malformed (fault : KeyPath.Fault) (hpath : KeyPath.IsMalformed keyPath)
      (hparse : KeyPath.parse keyPath = .error { text := keyPath, fault }) :
      Course files file keyPath fun _ => .error (.keyPath keyPath fault.message)
  /-- The file cannot be read. -/
  | unread (e : FileError) (hpath : ¬ KeyPath.IsMalformed keyPath)
      (hread : files.read file = pure (.error e)) :
      Course files file keyPath fun _ => .error (.file file e)
  /-- The file holds no document. -/
  | unparsed (text : String) (e : Yaml.ParseError) (hpath : ¬ KeyPath.IsMalformed keyPath)
      (hread : files.read file = pure (.ok text)) (hparse : Yaml.Document.parse text = .error e) :
      Course files file keyPath fun _ => .error (.parse file e)
  /-- The document holds no key for the path. -/
  | missed (text : String) (root : Option Yaml.Node) (hpath : ¬ KeyPath.IsMalformed keyPath)
      (hread : files.read file = pure (.ok text)) (hparse : Yaml.Document.parse text = .ok root)
      (hlocate : root.bind (Yaml.Node.locate (KeyPath.segmentsOf keyPath)) = none) :
      Course files file keyPath fun _ => .ok none
  /-- The file has no absolute path, although it could be read. -/
  | displaced (text : String) (found : KeyMatch) (e : FileError)
      (hpath : ¬ KeyPath.IsMalformed keyPath) (hfound : FindsKey files file keyPath text found)
      (habsolute : files.canonicalize file = pure (.error e)) :
      Course files file keyPath fun _ => .error (.file file e)
  /-- There is a key, and it can be shown. -/
  | shown (text : String) (found : KeyMatch) (absolute : String)
      (hpath : ¬ KeyPath.IsMalformed keyPath) (hfound : FindsKey files file keyPath text found)
      (habsolute : files.canonicalize file = pure (.ok absolute)) :
      Course files file keyPath fun withColumn =>
        .ok (some (Location.ofSpan text found.span absolute withColumn))

section Lookup

variable {files : FileAccess Id} {file keyPath : String}

/-- Every lookup takes a course. The cases are the steps of the lookup. -/
theorem exists_course (files : FileAccess Id) (file keyPath : String) :
    ∃ result, Course files file keyPath result := by
  by_cases hpath : KeyPath.IsMalformed keyPath
  · rcases KeyPath.parse_of_isMalformed hpath with ⟨fault, hparse⟩
    exact ⟨_, .malformed fault hpath hparse⟩
  cases hread : files.read file with
  | error e => exact ⟨_, .unread e hpath hread⟩
  | ok text =>
    cases hparse : Yaml.Document.parse text with
    | error e => exact ⟨_, .unparsed text e hpath hread hparse⟩
    | ok root =>
      cases hlocate : root.bind (Yaml.Node.locate (KeyPath.segmentsOf keyPath)) with
      | none => exact ⟨_, .missed text root hpath hread hparse hlocate⟩
      | some found =>
        have hfound : FindsKey files file keyPath text found := ⟨hread, root, hparse, hlocate⟩
        cases habsolute : files.canonicalize file with
        | error e => exact ⟨_, .displaced text found e hpath hfound habsolute⟩
        | ok absolute => exact ⟨_, .shown text found absolute hpath hfound habsolute⟩

/-- A path that is no key path ends the lookup on every file system, before its first effect. -/
theorem lookup_of_parse_eq_error {m : Type → Type} [Monad m] [LawfulMonad m]
    {e : KeyPath.Error} (h : KeyPath.parse keyPath = .error e) (files : FileAccess m)
    (file : String) (withColumn : Bool) :
    lookup files file keyPath withColumn = pure (.error (.ofKeyPathError e)) := by
  rw [lookup, h]

/-- The key for a path in a text, in terms of the text and the segments. -/
theorem KeyPath.find_of_parse {path : KeyPath} {text : String} {root : Option Yaml.Node}
    (hsegments : path.segments = segmentsOf keyPath)
    (hparse : Yaml.Document.parse text = .ok root) :
    path.find text = .ok (root.bind (Yaml.Node.locate (segmentsOf keyPath))) := by
  rw [find, hparse, hsegments]
  rfl

/-- Once a key has been found, the answer about the absolute path of the file decides. -/
theorem lookup_of_findsKey {text : String} {found : KeyMatch} {answer : Except FileError String}
    (hpath : ¬ KeyPath.IsMalformed keyPath) (hfound : FindsKey files file keyPath text found)
    (habsolute : files.canonicalize file = pure answer) (withColumn : Bool) :
    lookup files file keyPath withColumn = pure (match answer with
      | .error e => .error (.file file e)
      | .ok absolute => .ok (some (Location.ofSpan text found.span absolute withColumn))) := by
  rcases KeyPath.exists_parse_of_not_isMalformed hpath with ⟨path, hpath, hsegments⟩
  rcases hfound with ⟨hread, root, hparse, hlocate⟩
  have hfind := KeyPath.find_of_parse hsegments hparse
  rw [hlocate] at hfind
  rw [lookup, hpath]
  simp only [hread, hfind, habsolute, pure_bind]
  cases answer <;> rfl

/-- A course settles the result of the lookup: each step has the answer that the course tells. -/
theorem lookup_of_course {result : Bool → Except LookupError (Option Location)}
    (h : Course files file keyPath result) (withColumn : Bool) :
    lookup files file keyPath withColumn = pure (result withColumn) := by
  cases h with
  | malformed fault _ hparse => exact lookup_of_parse_eq_error hparse files file withColumn
  | unread e hpath hread =>
    rcases KeyPath.exists_parse_of_not_isMalformed hpath with ⟨path, hpath, -⟩
    rw [lookup, hpath]
    simp only [hread, pure_bind]
  | unparsed text e hpath hread hparse =>
    rcases KeyPath.exists_parse_of_not_isMalformed hpath with ⟨path, hpath, -⟩
    have hfind : path.find text = .error e := by
      rw [KeyPath.find, hparse]
      rfl
    rw [lookup, hpath]
    simp only [hread, hfind, pure_bind]
  | missed text root hpath hread hparse hlocate =>
    rcases KeyPath.exists_parse_of_not_isMalformed hpath with ⟨path, hpath, hsegments⟩
    have hfind := KeyPath.find_of_parse hsegments hparse
    rw [hlocate] at hfind
    rw [lookup, hpath]
    simp only [hread, hfind, pure_bind]
  | displaced text found e hpath hfound habsolute =>
    exact lookup_of_findsKey hpath hfound habsolute withColumn
  | shown text found absolute hpath hfound habsolute =>
    exact lookup_of_findsKey hpath hfound habsolute withColumn

end Lookup

namespace Query

/-- The message of a query that ends with a status other than success. -/
inductive Complaint (query : Query) : Status → String → Prop
  | path (fault : KeyPath.Fault) :
      Complaint query .wrongUsage
        ("invalid key path '" ++ query.keyPath ++ "': " ++ fault.message)
  | missing : Complaint query .fileNotFound ("File not found: " ++ query.file)
  | unread (e : FileError) :
      Complaint query .unreadable
        ("Failed to read/parse YAML file: " ++ (LookupError.file query.file e).message)
  | unparsed (e : Yaml.ParseError) :
      Complaint query .unreadable
        ("Failed to read/parse YAML file: " ++ (LookupError.parse query.file e).message)
  | noKey : Complaint query .keyNotFound ("Key '" ++ query.keyPath ++ "' not found.")

/-- What leads to each end of a query. Only the malformed path does so on every file system. -/
def Reason (query : Query) (files : FileAccess Id) : Status → Prop
  | .wrongUsage => KeyPath.IsMalformed query.keyPath
  | .fileNotFound => ¬ KeyPath.IsMalformed query.keyPath ∧
      (FailsAsMissing (files.read query.file) ∨
        ∃ text found, FindsKey files query.file query.keyPath text found ∧
          FailsAsMissing (files.canonicalize query.file))
  | .unreadable => ¬ KeyPath.IsMalformed query.keyPath ∧
      (FailsOtherwise (files.read query.file) ∨
        (∃ contents, String.fromUTF8? contents = none ∧
          files.read query.file = pure (decodeText contents)) ∨
        (∃ text e, files.read query.file = pure (.ok text) ∧
          Yaml.Document.parse text = .error e) ∨
        ∃ text found, FindsKey files query.file query.keyPath text found ∧
          FailsOtherwise (files.canonicalize query.file))
  | .keyNotFound => ¬ KeyPath.IsMalformed query.keyPath ∧
      ∃ text root, files.read query.file = pure (.ok text) ∧
        Yaml.Document.parse text = .ok root ∧
        root.bind (Yaml.Node.locate (KeyPath.segmentsOf query.keyPath)) = none
  | .success => ¬ KeyPath.IsMalformed query.keyPath ∧
      ∃ text found absolute, FindsKey files query.file query.keyPath text found ∧
        files.canonicalize query.file = pure (.ok absolute)

section Run

variable {query : Query} {files : FileAccess Id}

/-! ### The answer to each course -/

theorem answer_file_of_notFound (query : Query) (path : String) {e : FileError}
    (h : e.kind = .notFound) :
    query.answer (.error (.file path e)) =
      .failure .fileNotFound ("File not found: " ++ query.file) := by
  simp [answer, answerError, LookupError.isNotFound, h]

theorem answer_file_of_ne_notFound (query : Query) (path : String) {e : FileError}
    (h : e.kind ≠ .notFound) :
    query.answer (.error (.file path e)) = .failure .unreadable
      ("Failed to read/parse YAML file: " ++ (LookupError.file path e).message) := by
  simp [answer, answerError, LookupError.isNotFound, h]

/-- The outcome of a query from its course. -/
theorem run_of_course (query : Query) {result : Bool → Except LookupError (Option Location)}
    (h : Course files query.file query.keyPath result) :
    query.run files = pure (query.answer (result query.withColumn)) := by
  rw [run, lookup_of_course h, pure_bind]

/-- Contents that are not UTF-8 are no text. -/
theorem decodeText_of_none {contents : ByteArray} (h : String.fromUTF8? contents = none) :
    decodeText contents = .error .invalidText := by
  rw [decodeText, h]

/-- A course has a reason for the status that it ends with. -/
theorem reason_of_course {result : Bool → Except LookupError (Option Location)}
    (h : Course files query.file query.keyPath result) (withColumn : Bool) :
    query.Reason files (query.answer (result withColumn)).status := by
  cases h with
  | malformed fault hpath hparse => exact hpath
  | unread e hpath hread =>
    by_cases hkind : e.kind = .notFound
    · rw [answer_file_of_notFound query _ hkind]
      exact ⟨hpath, .inl ⟨e, hread, hkind⟩⟩
    · rw [answer_file_of_ne_notFound query _ hkind]
      exact ⟨hpath, .inl ⟨e, hread, hkind⟩⟩
  | unparsed text e hpath hread hparse => exact ⟨hpath, .inr (.inr (.inl ⟨text, e, hread, hparse⟩))⟩
  | missed text root hpath hread hparse hlocate => exact ⟨hpath, text, root, hread, hparse, hlocate⟩
  | displaced text found e hpath hfound habsolute =>
    by_cases hkind : e.kind = .notFound
    · rw [answer_file_of_notFound query _ hkind]
      exact ⟨hpath, .inr ⟨text, found, hfound, e, habsolute, hkind⟩⟩
    · rw [answer_file_of_ne_notFound query _ hkind]
      exact ⟨hpath, .inr (.inr (.inr ⟨text, found, hfound, e, habsolute, hkind⟩))⟩
  | shown text found absolute hpath hfound habsolute =>
    exact ⟨hpath, text, found, absolute, hfound, habsolute⟩

/-- Conversely, a reason is told by a course. -/
theorem exists_course_of_reason {status : Status} (h : query.Reason files status) :
    ∃ result, Course files query.file query.keyPath result ∧
      ∀ withColumn, (query.answer (result withColumn)).status = status := by
  cases status with
  | wrongUsage =>
    rcases KeyPath.parse_of_isMalformed h with ⟨fault, hparse⟩
    exact ⟨_, .malformed fault h hparse, fun _ => rfl⟩
  | fileNotFound =>
    rcases h with ⟨hpath, ⟨e, hread, hkind⟩ | ⟨text, found, hfound, e, habsolute, hkind⟩⟩
    · refine ⟨_, .unread e hpath hread, fun _ => ?_⟩
      rw [answer_file_of_notFound query _ hkind]
      rfl
    · refine ⟨_, .displaced text found e hpath hfound habsolute, fun _ => ?_⟩
      rw [answer_file_of_notFound query _ hkind]
      rfl
  | unreadable =>
    rcases h with ⟨hpath, ⟨e, hread, hkind⟩ | ⟨contents, hnone, hread⟩ | ⟨text, e, hread, hparse⟩ |
      ⟨text, found, hfound, e, habsolute, hkind⟩⟩
    · refine ⟨_, .unread e hpath hread, fun _ => ?_⟩
      rw [answer_file_of_ne_notFound query _ hkind]
      rfl
    · -- The reading of the file refuses what cannot be decoded.
      rw [decodeText_of_none hnone] at hread
      exact ⟨_, .unread _ hpath hread, fun _ => rfl⟩
    · exact ⟨_, .unparsed text e hpath hread hparse, fun _ => rfl⟩
    · refine ⟨_, .displaced text found e hpath hfound habsolute, fun _ => ?_⟩
      rw [answer_file_of_ne_notFound query _ hkind]
      rfl
  | keyNotFound =>
    rcases h with ⟨hpath, text, root, hread, hparse, hlocate⟩
    exact ⟨_, .missed text root hpath hread hparse hlocate, fun _ => rfl⟩
  | success =>
    rcases h with ⟨hpath, text, found, absolute, hfound, habsolute⟩
    exact ⟨_, .shown text found absolute hpath hfound habsolute, fun _ => rfl⟩

/-- A query ends with a status exactly if there is a reason for it. -/
theorem status_eq_iff {status : Status} :
    (query.run files).run.status = status ↔ query.Reason files status := by
  constructor
  · rintro rfl
    rcases exists_course files query.file query.keyPath with ⟨result, hcourse⟩
    rw [run_of_course query hcourse]
    exact reason_of_course hcourse query.withColumn
  · intro h
    rcases exists_course_of_reason h with ⟨result, hcourse, hstatus⟩
    rw [run_of_course query hcourse]
    exact hstatus query.withColumn

/-! ### What is written -/

/-- A query that succeeds writes a line about the key to the standard output. -/
theorem exists_run_eq_success (h : query.Reason files .success) :
    ∃ text found absolute, FindsKey files query.file query.keyPath text found ∧
      files.canonicalize query.file = pure (.ok absolute) ∧
      ∀ withColumn format, Query.run { query with withColumn, format } files =
        pure (.success (format.render (Location.ofSpan text found.span absolute withColumn))) := by
  rcases h with ⟨hpath, text, found, absolute, hfound, habsolute⟩
  exact ⟨text, found, absolute, hfound, habsolute, fun withColumn format =>
    run_of_course { query with withColumn, format }
      (.shown text found absolute hpath hfound habsolute)⟩

/-- A file that cannot be had is one complaint, whatever the options. -/
theorem exists_answer_file (query : Query) (e : FileError) :
    ∃ status message, query.Complaint status message ∧ ∀ withColumn format,
      Query.answer { query with withColumn, format } (.error (.file query.file e)) =
        .failure status message := by
  by_cases hkind : e.kind = .notFound
  · exact ⟨_, _, .missing, fun _ _ => answer_file_of_notFound _ _ hkind⟩
  · exact ⟨_, _, .unread e, fun _ _ => answer_file_of_ne_notFound _ _ hkind⟩

/-- Any other query writes one message to the standard error, whatever the options. -/
theorem exists_run_eq_failure (h : ¬ query.Reason files .success) :
    ∃ status message, query.Complaint status message ∧
      ∀ withColumn format, Query.run { query with withColumn, format } files =
        pure (.failure status message) := by
  rcases exists_course files query.file query.keyPath with ⟨result, hcourse⟩
  -- The course is the same for all options, since it is one of the file and the path alone.
  have hrun (withColumn : Bool) (format : Format) :=
    run_of_course { query with withColumn, format } hcourse
  cases hcourse with
  | malformed fault hpath hparse => exact ⟨_, _, .path fault, hrun⟩
  | unread e hpath hread =>
    rcases exists_answer_file query e with ⟨status, message, hcomplaint, hanswer⟩
    exact ⟨status, message, hcomplaint, fun withColumn format => by rw [hrun, hanswer]⟩
  | unparsed text e hpath hread hparse => exact ⟨_, _, .unparsed e, hrun⟩
  | missed text root hpath hread hparse hlocate => exact ⟨_, _, .noKey, hrun⟩
  | displaced text found e hpath hfound habsolute =>
    rcases exists_answer_file query e with ⟨status, message, hcomplaint, hanswer⟩
    exact ⟨status, message, hcomplaint, fun withColumn format => by rw [hrun, hanswer]⟩
  | shown text found absolute hpath hfound habsolute =>
    exact absurd ⟨hpath, text, found, absolute, hfound, habsolute⟩ h

/-- The options change neither the status nor what is written to the standard error. -/
theorem status_and_errors_eq (query : Query) (files : FileAccess Id) (withColumn : Bool)
    (format : Format) :
    (Query.run { query with withColumn, format } files).run.status =
        (query.run files).run.status ∧
      (Query.run { query with withColumn, format } files).run.errors =
        (query.run files).run.errors := by
  by_cases hsuccess : query.Reason files .success
  · rcases exists_run_eq_success hsuccess with ⟨text, found, absolute, -, -, hrun⟩
    have hself := hrun query.withColumn query.format
    rw [hrun withColumn format, hself]
    exact ⟨rfl, rfl⟩
  · rcases exists_run_eq_failure hsuccess with ⟨status, message, -, hrun⟩
    have hself := hrun query.withColumn query.format
    rw [hrun withColumn format, hself]
    exact ⟨rfl, rfl⟩

theorem append_newline_ne_empty (line : String) : line ++ "\n" ≠ "" := by
  simp [String.append_eq_empty_iff]

/-- A malformed path ends the query on every file system in the same way, without an effect. -/
theorem run_of_isMalformed (h : KeyPath.IsMalformed query.keyPath) {m : Type → Type} [Monad m]
    [LawfulMonad m] (other : FileAccess m) :
    query.run other = pure (query.run files).run := by
  rcases KeyPath.parse_of_isMalformed h with ⟨fault, hparse⟩
  rw [run, run, lookup_of_parse_eq_error hparse other, lookup_of_parse_eq_error hparse files,
    pure_bind, pure_bind]
  rfl

/-- No one asks for the absolute path of a file that a key is not found in. -/
theorem run_of_keyNotFound (h : query.Reason files .keyNotFound)
    (canonicalize : String → Id (Except FileError String)) :
    query.run { files with canonicalize } = query.run files := by
  rcases h with ⟨hpath, text, root, hread, hparse, hlocate⟩
  have hcourse : Course { files with canonicalize } query.file query.keyPath fun _ => .ok none :=
    .missed text root hpath hread hparse hlocate
  rw [run_of_course query hcourse,
    run_of_course query (.missed text root hpath hread hparse hlocate)]

theorem code_inj {status other : Status} : status.code = other.code ↔ status = other := by
  cases status <;> cases other <;> simp [Status.code]

theorem code_eq_iff (query : Query) (files : FileAccess Id) (status : Status) :
    (query.run files).run.status.code = status.code ↔ query.Reason files status :=
  code_inj.trans status_eq_iff

/-- The exit status and the streams of a query, for every file system, every path and all options.
    Whether there is one line on the standard output or one message on the standard error is
    decided by the status alone. -/
theorem run_outcome (query : Query) (files : FileAccess Id) :
    let outcome := (query.run files).run
    let code := outcome.status.code
    code ∈ [0, 2, 3, 4, 5] ∧
    (code = 2 ↔ query.Reason files .wrongUsage) ∧
    (code = 3 ↔ query.Reason files .fileNotFound) ∧
    (code = 4 ↔ query.Reason files .unreadable) ∧
    (code = 5 ↔ query.Reason files .keyNotFound) ∧
    (code = 0 ↔ query.Reason files .success) ∧
    (code = 2 → ∀ (m : Type → Type) [Monad m] [LawfulMonad m] (other : FileAccess m),
      query.run other = pure outcome) ∧
    (code = 5 → ∀ canonicalize, query.run { files with canonicalize } = pure outcome) ∧
    (outcome.output ≠ "" ↔ code = 0) ∧
    (code = 0 → outcome.errors = "") ∧
    (code ≠ 0 → ∃ message, query.Complaint outcome.status message ∧
      outcome.errors = message ++ "\n") ∧
    (∀ withColumn format,
      let other := (Query.run { query with withColumn, format } files).run
      other.status = outcome.status ∧ other.errors = outcome.errors) ∧
    (code = 0 → ∃ text found absolute,
      FindsKey files query.file query.keyPath text found ∧
      files.canonicalize query.file = pure (.ok absolute) ∧
      ∀ withColumn format, ∃ column, column.isSome = withColumn ∧
        Query.run { query with withColumn, format } files = pure (.success (format.render
          { path := absolute, line := Position.lineNumber text found.span.start, column }))) := by
  intro outcome code
  have hmem : code ∈ [0, 2, 3, 4, 5] := by
    simp only [code]
    cases outcome.status <;> decide
  have hcode := code_eq_iff query files
  refine ⟨hmem, hcode .wrongUsage, hcode .fileNotFound, hcode .unreadable, hcode .keyNotFound,
    hcode .success, fun h m _ _ other => ?_, fun h canonicalize => ?_, ?_⟩
  · exact run_of_isMalformed ((hcode .wrongUsage).mp h) other
  · exact run_of_keyNotFound ((hcode .keyNotFound).mp h) canonicalize
  -- What is left is about the streams: a query succeeds with one line, or fails with one message.
  by_cases hsuccess : query.Reason files .success
  · have hzero : code = 0 := (hcode .success).mpr hsuccess
    rcases exists_run_eq_success hsuccess with ⟨text, found, absolute, hfound, habsolute, hrun⟩
    have houtcome : outcome = .success (query.format.render
        (Location.ofSpan text found.span absolute query.withColumn)) :=
      hrun query.withColumn query.format
    refine ⟨iff_of_true ?_ hzero, fun _ => ?_, fun h => absurd hzero h,
      status_and_errors_eq query files, fun _ => ⟨text, found, absolute, hfound, habsolute,
        fun withColumn format => ⟨_, ?_, hrun _ _⟩⟩⟩
    · rw [houtcome]
      exact append_newline_ne_empty _
    · rw [houtcome]
      rfl
    · cases withColumn <;> rfl
  · have hne : code ≠ 0 := fun hzero => hsuccess ((hcode .success).mp hzero)
    rcases exists_run_eq_failure hsuccess with ⟨status, message, hcomplaint, hrun⟩
    have houtcome : outcome = .failure status message := hrun query.withColumn query.format
    refine ⟨iff_of_false ?_ hne, fun hzero => absurd hzero hne, fun _ => ⟨message, ?_, ?_⟩,
      status_and_errors_eq query files, fun hzero => absurd hzero hne⟩
    · rw [houtcome]
      exact fun hempty => hempty rfl
    · rw [houtcome]
      exact hcomplaint
    · rw [houtcome]
      rfl

end Run

end Query

end YamlLocator
