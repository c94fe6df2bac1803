import Stencil.Cli.Run
import Stencil.Proofs.Inspect.Leaves

/-!
# The stages of a command

A command works in stages, each on what the ones before it have yielded. It ends with the failure of
the first stage that fails, or with its whole output when none does; there is no partial output. The
readers and writers of documents are any functions, with what they say about their own failures.

## Main definitions

* `Stencil.Cli.Loads`, `Stencil.Cli.Reads` — how loading options and reading a document end.
* `Stencil.Cli.Lined` — a text with a line feed at its end.
* `Stencil.Cli.RenderEnds`, `Stencil.Cli.InspectEnds`, `Stencil.Cli.Ends` — how a command ends, with
  one constructor for each stage at which it can.

## Main results

* `Stencil.Cli.ends_iff` — the output of a command is what its stages end with.
* `Stencil.Cli.run_all_or_nothing` — the exit code and the texts of a command line.
-/

set_option autoImplicit false

namespace Stencil.Cli

variable {libraries : Libraries} {files : Files}

/-! ## Options and documents -/

section

variable (libraries : Libraries) (files : Files)

/-- How loading options ends: with the defaults when there is no options file, else with what the
file holds. The merge key is looked at before the depth. -/
inductive Loads : Option String → Except Failure Options → Prop where
  | defaults : Loads none (.ok {})
  | unread {path : String} {e : ReadError} :
    files path = .error e → Loads (some path) (.error (.optionsFile e))
  | malformed {path : String} {content : List Char} {account : Account} :
    files path = .ok content → libraries.options content = .error account →
    Loads (some path) (.error (.options (@OptionsError.malformed account)))
  | emptyMergeKey {path : String} {content : List Char} {options : Options} :
    files path = .ok content → libraries.options content = .ok options →
    options.mergeKey = "" → Loads (some path) (.error (.options .emptyMergeKey))
  | zeroDepth {path : String} {content : List Char} {options : Options} :
    files path = .ok content → libraries.options content = .ok options →
    options.mergeKey ≠ "" → options.maxDepth = 0 → Loads (some path) (.error (.options .zeroDepth))
  | loaded {path : String} {content : List Char} {options : Options} :
    files path = .ok content → libraries.options content = .ok options →
    options.mergeKey ≠ "" → options.maxDepth ≠ 0 → Loads (some path) (.ok options)

/-- How reading a document ends. Its format is that of the extension of its path, or else the one
its content looks like. -/
inductive Reads (path : String) : Except Failure (Value × Format) → Prop where
  | unread {e : ReadError} : files path = .error e → Reads path (.error (.file path e))
  | refused {content : List Char} {format : Format} {account : Account} :
    files path = .ok content → Format.detect path.toList content = format →
    libraries.parse format content = .error account →
    Reads path (.error (.unreadable format account))
  | read {content : List Char} {format : Format} {v : Value} :
    files path = .ok content → Format.detect path.toList content = format →
    libraries.parse format content = .ok v → Reads path (.ok (v, format))

end

/-- What is loaded from a file are the options that its text holds. -/
theorem loadOptions_of_ok {path : String} {content : List Char} (h : files path = .ok content) :
    loadOptions files (some path) libraries
      = (Options.parse libraries.options content).mapError .options := by
  rw [loadOptions, h]
  rfl

/-- Loading options ends in one way. -/
theorem loads_iff {config : Option String} {x : Except Failure Options} :
    Loads libraries files config x ↔ loadOptions files config libraries = x := by
  constructor
  · rintro (_ | hfile | ⟨hfile, hread⟩ | ⟨hfile, hread, hkey⟩ | ⟨hfile, hread, hkey, hdepth⟩ |
      ⟨hfile, hread, hkey, hdepth⟩)
    · rfl
    · rw [loadOptions, hfile]
      rfl
    · rw [loadOptions_of_ok hfile, Options.parse_of_error hread]
      rfl
    · rw [loadOptions_of_ok hfile, Options.parse_of_ok hread, Options.validate, if_pos hkey]
      rfl
    · rw [loadOptions_of_ok hfile, Options.parse_of_ok hread, Options.validate, if_neg hkey,
        if_pos hdepth]
      rfl
    · rw [loadOptions_of_ok hfile, Options.parse_of_ok hread,
        Options.validate_eq_ok_iff.2 ⟨hkey, hdepth⟩]
      rfl
  · rintro rfl
    cases config with
    | none => exact .defaults
    | some path =>
      cases hfile : files path with
      | error e =>
        rw [loadOptions, hfile]
        exact .unread hfile
      | ok content =>
        rw [loadOptions_of_ok hfile]
        cases hread : libraries.options content with
        | error account =>
          rw [Options.parse_of_error hread]
          exact .malformed hfile hread
        | ok options =>
          rw [Options.parse_of_ok hread, Options.validate]
          split
          · next hkey => exact .emptyMergeKey hfile hread hkey
          · next hkey =>
            split
            · next hdepth => exact .zeroDepth hfile hread hkey hdepth
            · next hdepth => exact .loaded hfile hread hkey hdepth

/-- What is read from a file is what a library finds in its text in the format of the file. -/
theorem readDocument_eq_of_ok {path : String} {content : List Char}
    (h : files path = .ok content) :
    readDocument files path libraries
      = (libraries.parse (Format.detect path.toList content) content).mapError
          (.unreadable (Format.detect path.toList content)) >>= fun v =>
        pure (v, Format.detect path.toList content) := by
  rw [readDocument, h]
  rfl

/-- What is read from a file is what its text holds in the format of the file. -/
theorem readDocument_of_ok {path : String} {content : List Char} (h : files path = .ok content) :
    readDocument files path
      = ((Format.detect path.toList content).parse content).mapError .document >>= fun v =>
        pure (v, Format.detect path.toList content) := by
  rw [readDocument_eq_of_ok h, ← Libraries.own_parse]
  cases Libraries.own.parse (Format.detect path.toList content) content <;> rfl

/-- Reading a document ends in one way. -/
theorem reads_iff {path : String} {x : Except Failure (Value × Format)} :
    Reads libraries files path x ↔ readDocument files path libraries = x := by
  constructor
  · rintro (hfile | ⟨hfile, rfl, hparse⟩ | ⟨hfile, rfl, hparse⟩)
    · rw [readDocument, hfile]
      rfl
    · rw [readDocument_eq_of_ok hfile, hparse]
      rfl
    · rw [readDocument_eq_of_ok hfile, hparse]
      rfl
  · rintro rfl
    cases hfile : files path with
    | error e =>
      rw [readDocument, hfile]
      exact .unread hfile
    | ok content =>
      rw [readDocument_eq_of_ok hfile]
      cases hparse : libraries.parse (Format.detect path.toList content) content with
      | error account => exact .refused hfile rfl hparse
      | ok v => exact .read hfile rfl hparse

/-! ## Commands -/

/-- The text has a line feed at its end: its own, or one more where it has none. -/
def Lined (s out : List Char) : Prop :=
  (s.getLast? = some '\n' ∧ out = s) ∨ (s.getLast? ≠ some '\n' ∧ out = s ++ ['\n'])

/-- A text gets a line feed only where it has none at its end. -/
theorem lined_iff {s out : List Char} : Lined s out ↔ endLine s = out := by
  unfold Lined endLine
  by_cases h : s.getLast? = some '\n' <;> simp [h, eq_comm]

section

variable (libraries : Libraries) (files : Files) (template context : String)
  (config : Option String) (output : Option Format) (pretty json : Bool)

/-- All that rendering works on has been loaded and read. -/
structure Prepared (options : Options) (node value : Value) (format : Format) : Prop where
  loads : Loads libraries files config (.ok options)
  reads_template : Reads libraries files template (.ok (node, format))
  reads_context : ∃ f, Reads libraries files context (.ok (value, f))

/-- How rendering a template file ends. The options are loaded, the template is read and then the
context, the tree is rendered, and the result is written; the first failure among these is that of
the whole. -/
inductive RenderEnds : Except Failure (List Char) → Prop where
  | options {e : Failure} : Loads libraries files config (.error e) → RenderEnds (.error e)
  | template {options : Options} {e : Failure} :
    Loads libraries files config (.ok options) → Reads libraries files template (.error e) →
    RenderEnds (.error e)
  | context {options : Options} {node : Value} {format : Format} {e : Failure} :
    Loads libraries files config (.ok options) →
    Reads libraries files template (.ok (node, format)) →
    Reads libraries files context (.error e) → RenderEnds (.error e)
  | rendering {options : Options} {node value : Value} {format : Format} {e : RenderError} :
    Prepared libraries files template context config options node value format →
    Tree.replace value options node = .error e → RenderEnds (.error (.render e))
  | writing {options : Options} {node value result : Value} {format : Format} {account : Account} :
    Prepared libraries files template context config options node value format →
    Tree.replace value options node = .ok result →
    libraries.render (output.getD format) pretty result = .error account →
    RenderEnds (.error (.unwritable (output.getD format) account))
  | rendered {options : Options} {node value result : Value} {format : Format}
    {s out : List Char} :
    Prepared libraries files template context config options node value format →
    Tree.replace value options node = .ok result →
    libraries.render (output.getD format) pretty result = .ok s → Lined s out →
    RenderEnds (.ok out)

/-- How inspecting a template file ends. The template is read, and the names of its tags are looked
up; the first one that is none of a tag is the failure of the whole. -/
inductive InspectEnds : Except Failure (List Char) → Prop where
  | template {e : Failure} :
    Reads libraries files template (.error e) → InspectEnds (.error e)
  | unknownTag {node : Value} {format : Format} {before after : List (List Char)}
    {name : List Char} :
    Reads libraries files template (.ok (node, format)) →
    Inspect.names node = before ++ name :: after → (∀ n ∈ before, Tag.Named Tag.all n) →
    ¬ Tag.Named Tag.all name → InspectEnds (.error (.render (.unknownTag (String.ofList name))))
  | reported {node : Value} {format : Format} {es : List Inspect.Entry} :
    Reads libraries files template (.ok (node, format)) →
    (∀ n ∈ Inspect.names node, Tag.Named Tag.all n) → Inspect.entries node = .ok es →
    json = false → InspectEnds (.ok (Inspect.report libraries.paint es))
  | written {node : Value} {format : Format} {es : List Inspect.Entry} {s : List Char} :
    Reads libraries files template (.ok (node, format)) →
    (∀ n ∈ Inspect.names node, Tag.Named Tag.all n) → Inspect.entries node = .ok es →
    json = true → libraries.render .json true (Inspect.reportValue es) = .ok s →
    InspectEnds (.ok (s ++ ['\n']))

end

/-- How a command ends. -/
def Ends (libraries : Libraries) (files : Files) : Command → Except Failure (List Char) → Prop
  | .render template context config output pretty =>
    RenderEnds libraries files template context config output pretty
  | .inspect template json => InspectEnds libraries files template json

section

variable {template context : String} {config : Option String} {output : Option Format}
  {pretty json : Bool} {x : Except Failure (List Char)}

/-- Once all has been loaded and read, a template is rendered and the result is written. -/
theorem Prepared.output_eq {options : Options} {node value : Value} {format : Format}
    (h : Prepared libraries files template context config options node value format) :
    (Command.render template context config output pretty).output files libraries
      = (Tree.replace value options node).mapError .render >>= fun result =>
        writeDocument (output.getD format) pretty result libraries >>= fun s =>
          pure (endLine s) := by
  obtain ⟨f, hcontext⟩ := h.reads_context
  simp only [Command.output, loads_iff.1 h.loads, reads_iff.1 h.reads_template,
    reads_iff.1 hcontext, ok_bind]

/-- What rendering a template file ends with is its output. -/
theorem RenderEnds.output_eq
    (h : RenderEnds libraries files template context config output pretty x) :
    (Command.render template context config output pretty).output files libraries = x := by
  rcases h with hloads | ⟨hloads, hread⟩ | ⟨hloads, hread, hcontext⟩ | ⟨hprepared, hreplace⟩ |
    ⟨hprepared, hreplace, hwrite⟩ | ⟨hprepared, hreplace, hwrite, hlined⟩
  · simp only [Command.output, loads_iff.1 hloads, error_bind]
  · simp only [Command.output, loads_iff.1 hloads, reads_iff.1 hread, ok_bind, error_bind]
  · simp only [Command.output, loads_iff.1 hloads, reads_iff.1 hread, reads_iff.1 hcontext,
      ok_bind, error_bind]
  · rw [hprepared.output_eq, hreplace]
    rfl
  · rw [hprepared.output_eq, hreplace, Except.mapError, ok_bind, writeDocument, hwrite]
    rfl
  · rw [hprepared.output_eq, hreplace, Except.mapError, ok_bind, writeDocument, hwrite,
      ← lined_iff.1 hlined]
    rfl

variable (libraries files template context config output pretty) in
/-- Rendering a template file ends: one of its stages fails, or none does. -/
theorem exists_renderEnds :
    ∃ x, RenderEnds libraries files template context config output pretty x := by
  cases hoptions : loadOptions files config libraries with
  | error e => exact ⟨_, .options (loads_iff.2 hoptions)⟩
  | ok options =>
    have hloads := loads_iff.2 hoptions
    cases htemplate : readDocument files template libraries with
    | error e => exact ⟨_, .template hloads (reads_iff.2 htemplate)⟩
    | ok document =>
      obtain ⟨node, format⟩ := document
      have hread := reads_iff.2 htemplate
      cases hcontext : readDocument files context libraries with
      | error e => exact ⟨_, .context hloads hread (reads_iff.2 hcontext)⟩
      | ok document =>
        obtain ⟨value, f⟩ := document
        have hprepared : Prepared libraries files template context config options node value
            format := ⟨hloads, hread, f, reads_iff.2 hcontext⟩
        cases hreplace : Tree.replace value options node with
        | error e => exact ⟨_, .rendering hprepared hreplace⟩
        | ok result =>
          cases hwrite : libraries.render (output.getD format) pretty result with
          | error account => exact ⟨_, .writing hprepared hreplace hwrite⟩
          | ok s => exact ⟨_, .rendered hprepared hreplace hwrite (lined_iff.2 rfl)⟩

/-- What inspecting a template file ends with is its output. -/
theorem InspectEnds.output_eq (h : InspectEnds libraries files template json x) :
    (Command.inspect template json).output files libraries = x := by
  rcases h with hread | ⟨hread, hnames, hbefore, hname⟩ | ⟨hread, -, hentries, rfl⟩ |
    ⟨hread, -, hentries, rfl, hwrite⟩
  · simp only [Command.output, reads_iff.1 hread, error_bind]
  · have hentries := Inspect.entries_eq_error_iff.2 ⟨_, _, _, hnames, hbefore, hname, rfl⟩
    simp only [Command.output, reads_iff.1 hread, hentries, Except.mapError, ok_bind, error_bind]
  · simp only [Command.output, reads_iff.1 hread, hentries, Except.mapError, ok_bind]
    rfl
  · simp only [Command.output, reads_iff.1 hread, hentries, writeDocument, hwrite, Except.mapError,
      ok_bind]
    rfl

variable (json) in
/-- A template that is read and whose tags all have known names is reported, since every report can
be written. -/
theorem exists_inspectEnds_ok {node : Value} {format : Format}
    (hread : Reads libraries files template (.ok (node, format)))
    (hnames : ∀ n ∈ Inspect.names node, Tag.Named Tag.all n) :
    ∃ s, InspectEnds libraries files template json (.ok s) := by
  obtain ⟨es, hentries⟩ := (Inspect.exists_entries_eq_ok_iff node).2 hnames
  cases json with
  | false => exact ⟨_, .reported hread hnames hentries rfl⟩
  | true =>
    obtain ⟨s, hwrite⟩ := libraries.exists_render_json true (Inspect.reportValue es)
    exact ⟨_, .written hread hnames hentries rfl hwrite⟩

variable (libraries files template json) in
/-- Inspecting a template file ends: it cannot be read, one of its names is none of a tag, or all of
them are those of tags and they are reported. -/
theorem exists_inspectEnds : ∃ x, InspectEnds libraries files template json x := by
  cases htemplate : readDocument files template libraries with
  | error e => exact ⟨_, .template (reads_iff.2 htemplate)⟩
  | ok document =>
    obtain ⟨node, format⟩ := document
    have hread := reads_iff.2 htemplate
    cases hentries : Inspect.entries node with
    | error e =>
      obtain ⟨before, name, after, hnames, hbefore, hname, -⟩ :=
        Inspect.entries_eq_error_iff.1 hentries
      exact ⟨_, .unknownTag hread hnames hbefore hname⟩
    | ok es =>
      obtain ⟨s, hs⟩ := exists_inspectEnds_ok json hread
        ((Inspect.exists_entries_eq_ok_iff node).1 ⟨es, hentries⟩)
      exact ⟨_, hs⟩

/-- Inspecting a template file succeeds exactly when the template is read and all its tags have
known names. -/
theorem exists_inspectEnds_ok_iff :
    (∃ s, InspectEnds libraries files template json (.ok s)) ↔
      ∃ node format, Reads libraries files template (.ok (node, format)) ∧
        ∀ n ∈ Inspect.names node, Tag.Named Tag.all n := by
  constructor
  · rintro ⟨s, _ | _ | ⟨hread, hnames, -, -⟩ | ⟨hread, hnames, -, -, -⟩⟩
    · exact ⟨_, _, hread, hnames⟩
    · exact ⟨_, _, hread, hnames⟩
  · rintro ⟨node, format, hread, hnames⟩
    exact exists_inspectEnds_ok json hread hnames

end

variable {command : Command} {x : Except Failure (List Char)}

/-- What a command ends with is its output. -/
theorem ends_iff : Ends libraries files command x ↔ command.output files libraries = x := by
  have houtput : ∀ y, Ends libraries files command y → command.output files libraries = y := by
    cases command with
    | render => exact fun _ h => h.output_eq
    | inspect => exact fun _ h => h.output_eq
  have hexists : ∃ y, Ends libraries files command y := by
    cases command with
    | render template context config output pretty =>
      exact exists_renderEnds libraries files template context config output pretty
    | inspect template json => exact exists_inspectEnds libraries files template json
  refine ⟨houtput x, ?_⟩
  rintro rfl
  obtain ⟨y, hy⟩ := hexists
  rwa [houtput y hy]

/-! ## Command lines -/

variable {environment : Option String} {args : List String} {verbose : Bool}

/-- A command line whose command succeeds writes the whole output. -/
theorem run_of_ok {s : List Char}
    (h : Request.ofArguments? environment (args.map String.toList) = some (.run verbose command))
    (hends : Ends libraries files command (.ok s)) :
    run files environment args libraries = ⟨0, s, libraries.logged verbose command⟩ := by
  simp only [run, h, outcome, ends_iff.1 hends]

/-- A command line whose command fails writes the failure and no output. -/
theorem run_of_error {e : Failure}
    (h : Request.ofArguments? environment (args.map String.toList) = some (.run verbose command))
    (hends : Ends libraries files command (.error e)) :
    run files environment args libraries
      = ⟨1, [], libraries.logged verbose command ++ e.line libraries.paint⟩ := by
  simp only [run, h, outcome, ends_iff.1 hends]

/-- A command line exits with zero exactly when all stages of its command succeed. -/
theorem code_run_eq_zero_iff
    (h : Request.ofArguments? environment (args.map String.toList) = some (.run verbose command)) :
    (run files environment args libraries).code = 0 ↔
      ∃ s, Ends libraries files command (.ok s) := by
  cases houtput : command.output files libraries with
  | ok s =>
    have hends : Ends libraries files command (.ok s) := ends_iff.2 houtput
    exact iff_of_true (by rw [run_of_ok h hends]) ⟨s, hends⟩
  | error e =>
    have hends : Ends libraries files command (.error e) := ends_iff.2 houtput
    refine iff_of_false ?_ ?_
    · rw [run_of_error h hends]
      exact Nat.one_ne_zero
    · rintro ⟨s, hs⟩
      rw [ends_iff, houtput] at hs
      cases hs

/-- **A command is all or nothing**, with any readers and writers. A command line that asks for a
command ends in one way. It exits with zero exactly when all stages of the command succeed, and then
writes the whole output. Else it exits with one, writes no output, and reports the failure of the
first stage that fails, behind the log if one is wanted. For a report on a template the stages are
its reading and the names of its tags, since the report can always be written. -/
theorem run_all_or_nothing
    (h : Request.ofArguments? environment (args.map String.toList) = some (.run verbose command)) :
    (∃! x, Ends libraries files command x) ∧
    ((run files environment args libraries).code = 0 ↔
      ∃ s, Ends libraries files command (.ok s)) ∧
    (∀ s, Ends libraries files command (.ok s) →
      run files environment args libraries = ⟨0, s, libraries.logged verbose command⟩) ∧
    ((run files environment args libraries).code ≠ 0 →
      ∃ e, Ends libraries files command (.error e)) ∧
    (∀ e, Ends libraries files command (.error e) →
      run files environment args libraries
        = ⟨1, [], libraries.logged verbose command ++ e.line libraries.paint⟩) ∧
    ∀ template json, command = .inspect template json →
      ((run files environment args libraries).code = 0 ↔
        ∃ node format, Reads libraries files template (.ok (node, format)) ∧
          ∀ n ∈ Inspect.names node, Tag.Named Tag.all n) := by
  refine ⟨⟨_, ends_iff.2 rfl, fun y hy => (ends_iff.1 hy).symm⟩, code_run_eq_zero_iff h,
    fun s => run_of_ok h, fun hcode => ?_, fun e => run_of_error h, ?_⟩
  · cases houtput : command.output files libraries with
    | ok s => exact absurd ((code_run_eq_zero_iff h).2 ⟨s, ends_iff.2 houtput⟩) hcode
    | error e => exact ⟨e, ends_iff.2 houtput⟩
  · rintro template json rfl
    rw [code_run_eq_zero_iff h]
    exact exists_inspectEnds_ok_iff

/-- A reader of JSON that says where a text breaks off, and a log with one line. -/
def wordyLibraries : Libraries := { Libraries.own with
  parse := fun format content =>
    if format = .json ∧ content = "[".toList then
      .error (some "EOF while parsing a list at line 1 column 1")
    else if format = .json ∧ content = "\x7b".toList then
      .error (some "EOF while parsing an object at line 1 column 1")
    else Libraries.own.parse format content
  log := fun _ => "2026-01-01T00:00:00.000000Z DEBUG placeholders: Verbose mode enabled\n".toList }

/-- Two files that break off, a template with an unknown tag, one with a known tag, and an options
file. -/
def fiveFiles : Files
  | "list.json" => .ok "[".toList
  | "object.json" => .ok "\x7b".toList
  | "stray.json" => .ok "[\"\x7b\x7ba:nope\x7d\x7d\"]".toList
  | "plain.json" => .ok "[\"\x7b\x7bmax_depth:int\x7d\x7d\"]".toList
  | "options.toml" => .ok "max_depth = 4\n".toList
  | _ => .error .notFound

/-- Of two files that break off the template is reported, behind the log. A context that is missing
is reported before the unknown tag of the template, with the options file taken from the
environment. That file serves the other template as its context, and the other template can be
reported on. -/
theorem run_all_or_nothing_of_broken_files :
    run fiveFiles none ["-v", "render", "list.json", "-c", "object.json"] wordyLibraries
      = ⟨1, [], "2026-01-01T00:00:00.000000Z DEBUG placeholders: Verbose mode enabled\n".toList
          ++ "error: JSON error: EOF while parsing a list at line 1 column 1\n".toList⟩ ∧
    run fiveFiles (some "options.toml") ["render", "stray.json", "-c", "c.json"] wordyLibraries
      = ⟨1, [], "error: Failed to read c.json: No such file or directory (os error 2)\n".toList⟩ ∧
    run fiveFiles none ["render", "plain.json", "--context=options.toml"] wordyLibraries
      = ⟨0, "[4]\n".toList, []⟩ ∧
    (run fiveFiles none ["inspect", "plain.json", "--json"] wordyLibraries).code = 0 := by
  have hplain : Reads wordyLibraries fiveFiles "plain.json"
      (.ok (.arr [.str "\x7b\x7bmax_depth:int\x7d\x7d"], .json)) :=
    .read rfl (by decide +kernel) (eq_ok_of_toOption (by decide +kernel))
  refine ⟨?_, ?_, ?_, ?_⟩
  · have h : Request.ofArguments? none
        (["-v", "render", "list.json", "-c", "object.json"].map String.toList)
        = some (.run true (.render "list.json" "object.json" none none false)) := by
      decide +kernel
    have hread : Reads wordyLibraries fiveFiles "list.json" (.error (.unreadable .json
        (some "EOF while parsing a list at line 1 column 1"))) :=
      .refused rfl (by decide +kernel) rfl
    rw [(run_all_or_nothing h).2.2.2.2.1 _ (RenderEnds.template .defaults hread)]
    decide +kernel
  · have h : Request.ofArguments? (some "options.toml")
        (["render", "stray.json", "-c", "c.json"].map String.toList)
        = some (.run false (.render "stray.json" "c.json" (some "options.toml") none false)) := by
      decide +kernel
    have hloads : Loads wordyLibraries fiveFiles (some "options.toml") (.ok { maxDepth := 4 }) :=
      .loaded rfl (eq_ok_of_toOption (by decide +kernel)) (by decide) (by decide)
    have hread : Reads wordyLibraries fiveFiles "stray.json"
        (.ok (.arr [.str "\x7b\x7ba:nope\x7d\x7d"], .json)) :=
      .read rfl (by decide +kernel) (eq_ok_of_toOption (by decide +kernel))
    rw [(run_all_or_nothing h).2.2.2.2.1 _ (RenderEnds.context hloads hread (.unread rfl))]
    decide +kernel
  · have h : Request.ofArguments? none
        (["render", "plain.json", "--context=options.toml"].map String.toList)
        = some (.run false (.render "plain.json" "options.toml" none none false)) := by
      decide +kernel
    have hcontext : Reads wordyLibraries fiveFiles "options.toml"
        (.ok (.obj [("max_depth", .num (.int 4))], .toml)) :=
      .read rfl (by decide +kernel) (eq_ok_of_toOption (by decide +kernel))
    have hreplace : Tree.replace (.obj [("max_depth", .num (.int 4))]) {}
        (.arr [.str "\x7b\x7bmax_depth:int\x7d\x7d"]) = .ok (.arr [.num (.int 4)]) :=
      eq_ok_of_toOption (by decide +kernel)
    have hwrite : wordyLibraries.render .json false (.arr [.num (.int 4)]) = .ok "[4]".toList :=
      eq_ok_of_toOption (by decide +kernel)
    exact (run_all_or_nothing h).2.2.1 _
      (RenderEnds.rendered ⟨.defaults, hplain, _, hcontext⟩ hreplace hwrite
        (.inr ⟨by decide +kernel, rfl⟩))
  · have h : Request.ofArguments? none (["inspect", "plain.json", "--json"].map String.toList)
        = some (.run false (.inspect "plain.json" true)) := by
      decide +kernel
    have hnames : Inspect.names (.arr [.str "\x7b\x7bmax_depth:int\x7d\x7d"])
        = ["int".toList] := by
      decide +kernel
    refine ((run_all_or_nothing h).2.2.2.2.2 _ _ rfl).2 ⟨_, _, hplain, ?_⟩
    rw [hnames]
    exact List.forall_mem_singleton.2 ⟨.int, by decide, rfl⟩

end Stencil.Cli
