import LogCodec.Command.Perform
import LogCodec.Proofs.Files.Directory
import LogCodec.Proofs.Gzip.Stored

/-! # Commands in a directory

    A command reads the standard input or a file of a directory, which may be
    compressed, and writes to the standard output or to such a file.  Any way to compress
    is allowed that loses nothing.

    - `Command.runIn`: what comes of a command in a directory.
    - `Directory.Holds`: which data is behind a path.
    - `Directory.Holds.exists_source`: a command reads this data from a source that is
      steady to its end.
    - `holds_of_writeOutput`: the data that a command has written is behind the path of
      its output. -/

namespace LogCodec

/-- What comes of a command in a directory, when files are compressed in this way and the
    standard input gives these bytes. -/
def Command.runIn (command : Command) (compress : Bytes → Bytes) (input : Bytes)
    (d : Directory) : Ending × Directory :=
  (command.perform (Directory.files input) compress).run d

/-- The data behind a path: the standard input, what is compressed in a file, or the
    bytes of a file. -/
def Directory.Holds (d : Directory) (input : Bytes) (path : String) (data : Bytes) : Prop :=
  if path = standardPath then input = data
  else ∃ file, d.read path = .ok (.ofBytes file) ∧
    if Path.isGzip path then
      (Gzip.firstMember file).data = data ∧ (Gzip.firstMember file).failure = none
    else file = data

section

variable {d d' : Directory} {input : Bytes} {path output : String} {data : Bytes}
  {file : Contents} {compress : Bytes → Bytes}

/-! ### Inputs -/

/-- The file that a command opens. -/
def Opens (d : Directory) (input : Bytes) (path : String) (file : Contents) : Prop :=
  (openInput (Directory.files input) path).run d = (.ok file, d)

theorem opens_standard (d : Directory) (input : Bytes) :
    Opens d input standardPath (.ofBytes input) := rfl

theorem opens_of_read (hpath : path ≠ standardPath) (hread : d.read path = .ok file) :
    Opens d input path file := by
  have hrun : ((Directory.files input).read path).run d = (.ok file, d) := by
    rw [← hread]
    rfl
  unfold Opens openInput
  rw [if_neg hpath]
  simp only [StateT.run_bind]
  rw [hrun]
  rfl

theorem isGzip_standardPath : Path.isGzip standardPath = false := by
  have hparts : Path.parts standardPath = ["-"] := by
    rw [standardPath, Path.parts, String.splitOn, if_neg (by decide)]
    iterate 2 rw [String.splitOnAux]; simp +decide only [if_false, if_true]
  rw [Path.isGzip, Path.lastName?, hparts]
  decide +kernel

/-- **The data behind a path** is what a command reads from it. -/
theorem Directory.Holds.exists_source (h : d.Holds input path data) :
    ∃ file, Opens d input path file ∧ (sourceOf path file).SteadyToEnd ∧
      (sourceOf path file).data = data := by
  unfold Holds at h
  by_cases hpath : path = standardPath
  · rw [if_pos hpath] at h
    subst hpath
    subst h
    refine ⟨.ofBytes input, opens_standard d input, ?_, ?_⟩
    · rw [sourceOf, isGzip_standardPath]
      exact Source.steadyToEnd_ofContents input
    · rw [sourceOf, isGzip_standardPath]
      rfl
  · rw [if_neg hpath] at h
    obtain ⟨file, hread, hdata⟩ := h
    refine ⟨.ofBytes file, opens_of_read hpath hread, ?_⟩
    cases hgzip : Path.isGzip path with
    | true =>
      rw [hgzip, if_pos rfl] at hdata
      rw [sourceOf, hgzip, if_pos rfl]
      exact ⟨Gzip.steadyToEnd_source hdata.2, hdata.1⟩
    | false =>
      rw [hgzip, if_neg Bool.false_ne_true] at hdata
      rw [sourceOf, hgzip, if_neg Bool.false_ne_true]
      subst hdata
      exact ⟨Source.steadyToEnd_ofContents file, rfl⟩

theorem runIn_decode (h : Opens d input path file) (style : TextLog.TimestampStyle) :
    (Command.decode path style).runIn compress input d =
      (Command.decodeStream path style (sourceOf path file), d) := by
  have hopen : (openInput (Directory.files input) path).run d = (.ok file, d) := h
  simp only [Command.runIn, Command.perform, StateT.run_bind]
  rw [hopen]
  rfl

theorem runIn_search (h : Opens d input path file) (queries : List Query) (interval : Interval)
    (style : TextLog.TimestampStyle) :
    (Command.search path queries interval style).runIn compress input d =
      (Command.searchStream path queries interval style (sourceOf path file), d) := by
  have hopen : (openInput (Directory.files input) path).run d = (.ok file, d) := h
  simp only [Command.runIn, Command.perform, StateT.run_bind]
  rw [hopen]
  rfl

/-! ### Outputs -/

/-- The output of a command can be written: it is the standard output, or a file can be
    created. -/
def Directory.CanWrite (d : Directory) (path : String) : Prop :=
  path = standardPath ∨ ∃ d', d.create path = .ok d'

/-- Two paths do not lead to the same file. -/
def Directory.Apart (d : Directory) (path other : String) : Prop :=
  path = standardPath ∨ other = standardPath ∨ d.isSame path other = false

/-- A text is encoded as a whole when the output is not the file that it is read
    from. -/
theorem runIn_encode (h : Opens d input path file) (hapart : d.Apart path output)
    (options : StreamOptions) :
    (Command.encode path output options).runIn compress input d =
      (writeOutput (Directory.files input) compress output
        (Command.encodeText path output options ((sourceOf path file).drain blockSize))).run d := by
  have hopen : (openInput (Directory.files input) path).run d = pure (.ok file, d) := h
  simp only [Command.runIn, Command.perform, StateT.run_bind]
  rw [hopen, pure_bind]
  by_cases hstandard : path = standardPath ∨ output = standardPath
  · simp only [if_pos hstandard, Bool.false_eq_true, if_false, pure_bind]
  · rcases hapart with hpath | houtput | hapart
    · exact absurd (.inl hpath) hstandard
    · exact absurd (.inr houtput) hstandard
    · have hsame : ((Directory.files input).isSame path output).run d = pure (false, d) := by
        rw [← hapart]
        rfl
      simp only [if_neg hstandard, StateT.run_bind]
      rw [hsame, pure_bind]
      simp only [Bool.false_eq_true, if_false]

theorem run_create (d : Directory) (input : Bytes) (path : String) :
    ((Directory.files input).create path).run d =
      match d.create path with
      | .error fault => (.error fault, d)
      | .ok d' => (.ok (), d') := by
  simp only [Directory.files, StateT.run_bind, StateT.run_get, pure_bind]
  cases d.create path <;> rfl

theorem run_writeOutput_of_create (houtput : output ≠ standardPath)
    (hcreate : d.create output = .ok d') (ending : Ending) :
    (writeOutput (Directory.files input) compress output ending).run d =
      ({ ending with written := [] }, d'.write output
        (if Path.isGzip output then compress ending.written else ending.written)) := by
  have hrun := run_create d input output
  rw [hcreate] at hrun
  unfold writeOutput
  rw [if_neg houtput]
  simp only [StateT.run_bind]
  rw [hrun]
  rfl

/-- What was written is behind the path of the output. -/
theorem holds_of_writeOutput (hlossless : Gzip.Lossless compress) (h : d.CanWrite output)
    (stream : Bytes) (tally : Tally) :
    ∃ written d', (writeOutput (Directory.files input) compress output ⟨stream, .ok tally⟩).run d =
        (⟨written, .ok tally⟩, d') ∧ d'.Holds written output stream := by
  by_cases houtput : output = standardPath
  · refine ⟨stream, d, ?_, ?_⟩
    · rw [writeOutput, if_pos houtput]
      rfl
    · rw [Directory.Holds, if_pos houtput]
  · obtain ⟨d', hcreate⟩ := h.resolve_left houtput
    refine ⟨[], _, run_writeOutput_of_create houtput hcreate _, ?_⟩
    rw [Directory.Holds, if_neg houtput]
    refine ⟨_, Directory.read_write_create hcreate _, ?_⟩
    cases hgzip : Path.isGzip output with
    | true => exact hlossless stream
    | false => rfl

/-- A command whose output cannot be written fails. -/
theorem result_writeOutput_error (h : ¬d.CanWrite output) (ending : Ending) :
    ∃ failure, ((writeOutput (Directory.files input) compress output ending).run d).1.result =
      .error failure := by
  have houtput : output ≠ standardPath := by
    intro heq
    exact h (.inl heq)
  cases hcreate : d.create output with
  | ok d' => exact absurd (.inr ⟨d', hcreate⟩) h
  | error fault =>
    have hrun := run_create d input output
    rw [hcreate] at hrun
    unfold writeOutput
    rw [if_neg houtput]
    simp only [StateT.run_bind]
    rw [hrun]
    exact ⟨_, rfl⟩

/-- A command that fails still writes its output. -/
theorem result_writeOutput (ending : Ending) {failure : Failure}
    (h : ending.result = .error failure) :
    ∃ failure', ((writeOutput (Directory.files input) compress output ending).run d).1.result =
      .error failure' := by
  by_cases houtput : output = standardPath
  · rw [writeOutput, if_pos houtput]
    exact ⟨failure, h⟩
  · cases hcreate : d.create output with
    | ok d' =>
      rw [run_writeOutput_of_create houtput hcreate]
      exact ⟨failure, h⟩
    | error fault =>
      apply result_writeOutput_error
      intro hcan
      obtain ⟨d', hok⟩ := hcan.resolve_left houtput
      rw [hcreate] at hok
      cases hok

end

end LogCodec
