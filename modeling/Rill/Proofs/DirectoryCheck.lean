import Rill.Command.Perform
import Rill.Proofs.Entries

/-!
# The check of a directory

Everything at or below a directory that is named as a source file is checked : its bytes are read as
text and parsed as a program. What is met need not be a file. A directory with such a name is
checked as if it were a file, which fails; a link is checked for what it leads to, and anything else
for what a read of it gives. So the numbers that are printed are those of the source files and of
those with errors, with all that is no file added (`Command.check_counts`).
-/

namespace Rill

/-! ## Names of source files -/

/-- Whether a name is that of a source file : something, and then the extension. -/
def Path.isSourceName (name : String) : Bool :=
  ".rill".toList.isSuffixOf name.toList && decide (".rill".length < name.length)

/-- What follows the last dot, as a suffix with the dot. -/
theorem reverse_takeWhile_eq_iff {chars after : List Char} (hafter : '.' ∉ after)
    (hlength : after.length < chars.length) :
    (chars.reverse.takeWhile (· != '.')).reverse = after ↔ '.' :: after <:+ chars := by
  constructor
  · intro h
    have hsplit := List.takeWhile_append_dropWhile (p := (· != '.')) (l := chars.reverse)
    have hdot := List.head?_dropWhile_not (· != '.') chars.reverse
    rw [List.reverse_eq_iff.1 h] at hsplit
    cases hdrop : chars.reverse.dropWhile (· != '.') with
    | nil =>
      have hall := congrArg List.length hsplit
      simp [hdrop] at hall
      omega
    | cons c rest =>
      rw [hdrop] at hsplit hdot
      have hc : c = '.' := by simpa using hdot
      refine ⟨rest.reverse, ?_⟩
      rw [← List.reverse_reverse chars, ← hsplit, hc]
      simp
  · rintro ⟨stem, rfl⟩
    have hall : ∀ c ∈ after.reverse, (c != '.') = true := by
      intro c hc
      refine bne_iff_ne.2 fun heq => hafter ?_
      rwa [heq, List.mem_reverse] at hc
    rw [List.reverse_append, List.reverse_cons, List.append_assoc,
      List.takeWhile_append_of_pos hall]
    simp

theorem Path.extension?_eq_some_iff {path name ext : String} (h : fileName? path = some name) :
    extension? path = some ext ↔
      (name.toList.reverse.takeWhile (· != '.')).reverse = ext.toList ∧
      ext.length + 1 < name.length := by
  generalize hafter : (name.toList.reverse.takeWhile (· != '.')).reverse = after
  have hrun : extension? path =
      (if after.length + 1 < name.length then some () else none).bind
        fun _ => some (String.ofList after) := by
    rw [extension?, h, ← hafter]
    rfl
  simp only [hrun, ← String.length_toList]
  split
  next hlength =>
    rw [Option.bind_some, Option.some_inj, ← String.toList_inj, String.toList_ofList]
    exact ⟨fun heq => ⟨heq, heq ▸ hlength⟩, And.left⟩
  next hlength =>
    refine ⟨fun hnone => absurd hnone (Option.some_ne_none ext).symm, ?_⟩
    rintro ⟨rfl, hlt⟩
    exact absurd hlt hlength

/-- A path is that of a source by the last part of it. -/
theorem Command.isSource_eq (path : String) :
    isSource path = (Path.fileName? path).any Path.isSourceName := by
  cases hname : Path.fileName? path with
  | none =>
    rw [isSource, Path.extension?, hname]
    rfl
  | some name =>
    rw [isSource, Option.any_some, Path.isSourceName, Bool.eq_iff_iff, decide_eq_true_iff,
      Path.extension?_eq_some_iff hname, Bool.and_eq_true, List.isSuffixOf_iff_suffix,
      decide_eq_true_iff]
    refine and_congr_left fun hlength => ?_
    have hlt : "rill".toList.length < name.toList.length := by
      rw [String.length_toList, String.length_toList]
      exact Nat.lt_of_succ_lt hlength
    exact reverse_takeWhile_eq_iff (by decide) hlt

namespace FileTree

/-- Whether a tree is a file. -/
def isRegular : FileTree → Bool
  | .file _ => true
  | _ => false

/-- Whether a read of a tree gives the text of a program. -/
def isProgram (t : FileTree) : Bool :=
  (t.content.toOption.bind String.fromUTF8?).any fun text => (Buffer.anonymous text).program.isOk

/-- All that lies below a tree and is named as a source file. -/
def sources (t : FileTree) : List FileTree :=
  (t.contents.filter (Path.isSourceName ·.1)).map Prod.snd

theorem isLink_of_isRegular {t : FileTree} (h : t.isRegular = true) : t.isLink = false := by
  cases t with
  | file => rfl
  | _ => cases h

end FileTree

namespace Command

variable {tree t : FileTree} {path : String}

/-! ## Checks of files -/

theorem length_errors_checkBuffer (b : Buffer) :
    (checkBuffer b).errors.length = if b.program.isOk then 0 else 1 := by
  rw [checkBuffer]
  cases b.program <;> rfl

theorem checkFile_of_ok {text : String} (h : tree.read path = .ok text) :
    (checkFile tree.access path).run = checkBuffer ⟨path, text⟩ := by
  simp only [checkFile, withSource, readSource, FileTree.access, h]
  rfl

theorem checkFile_of_error {e : ReadError} (h : tree.read path = .error e) :
    (checkFile tree.access path).run = .failure (Error.unreadable path e).message := by
  simp only [checkFile, withSource, readSource, FileTree.access, h]
  rfl

/-- Whether the path leads to the text of a program. -/
def leadsToProgram (tree : FileTree) (path : String) : Bool :=
  (tree.resolve path).toOption.any FileTree.isProgram

/-- The check of a path reports one error, unless the path leads to a program. -/
theorem length_errors_checkFile (tree : FileTree) (path : String) :
    (checkFile tree.access path).run.errors.length = if leadsToProgram tree path then 0 else 1 := by
  rw [leadsToProgram]
  cases h : tree.resolve path with
  | error e =>
    have hread : tree.read path = .error e := by
      rw [FileTree.read, h]
      rfl
    rw [checkFile_of_error hread]
    rfl
  | ok t =>
    rw [Except.toOption, Option.any_some, FileTree.isProgram]
    cases hcontent : t.content with
    | error e =>
      have hread : tree.read path = .error e := by
        rw [FileTree.read, h]
        exact congrArg (· >>= ReadError.decode) hcontent
      rw [checkFile_of_error hread]
      rfl
    | ok bytes =>
      have hread : tree.read path = ReadError.decode bytes := by
        rw [FileTree.read, h]
        exact congrArg (· >>= ReadError.decode) hcontent
      rw [ReadError.decode] at hread
      rw [Except.toOption, Option.bind_some]
      cases htext : String.fromUTF8? bytes with
      | none =>
        rw [htext] at hread
        rw [checkFile_of_error hread]
        rfl
      | some text =>
        rw [htext] at hread
        rw [checkFile_of_ok hread]
        exact length_errors_checkBuffer _

theorem succeeded_checkFile (tree : FileTree) (path : String) :
    (checkFile tree.access path).run.succeeded = leadsToProgram tree path := by
  have hlength := length_errors_checkFile tree path
  rw [Report.succeeded, Bool.eq_iff_iff, List.isEmpty_iff_length_eq_zero, hlength]
  split <;> simp_all

/-! ## Checks of directories -/

/-- What is checked at and below a tree, each with its path. -/
def checked (path : String) (t : FileTree) : List (String × FileTree) :=
  (t.located path).filter (isSource ·.1)

theorem filter_walk (hpath : tree.resolve path = .ok t) :
    (tree.walk path).filter isSource = (checked path t).map Prod.fst := by
  rw [FileTree.walk, hpath, checked, List.filter_map]
  rfl

theorem checkDirectory_eq (tree : FileTree) (path : String) :
    (checkDirectory tree.access path).run =
      let files := (tree.walk path).filter isSource
      let reports := files.map fun file => (checkFile tree.access file).run
      let failing := reports.filter fun r => !r.succeeded
      { output := s!"Checked {files.length} files, {failing.length} with errors\n"
        errors := reports.flatMap Report.errors } := by
  simp only [← List.idRun_mapM]
  rfl

theorem length_flatMap_errors {reports : List Report} (h : ∀ r ∈ reports, r.errors.length ≤ 1) :
    (reports.flatMap Report.errors).length = (reports.filter fun r => !r.succeeded).length := by
  induction reports with
  | nil => rfl
  | cons r rest ih =>
    rw [List.forall_mem_cons] at h
    rw [List.flatMap_cons, List.length_append, ih h.2, List.filter_cons]
    cases herrors : r.errors with
    | nil => simp [Report.succeeded, herrors]
    | cons e more =>
      have hmore : more = [] := by simpa [herrors] using h.1
      simp [Report.succeeded, herrors, hmore, Nat.add_comm]

/-- The report on a directory, by what is checked in it. -/
theorem checkDirectory_report (hpath : tree.resolve path = .ok t) :
    let failed := (checked path t).countP fun e => !leadsToProgram tree e.1
    let report := (checkDirectory tree.access path).run
    report.output = s!"Checked {(checked path t).length} files, {failed} with errors\n" ∧
      report.errors.length = failed ∧ report.notes = [] := by
  intro failed report
  have hfailed : (((checked path t).map fun e => (checkFile tree.access e.1).run).filter
      fun r => !r.succeeded).length = failed := by
    rw [← List.countP_eq_length_filter, List.countP_map]
    simp only [Function.comp_def, succeeded_checkFile, failed]
  have hreport : report = _ := checkDirectory_eq tree path
  simp only [filter_walk hpath, List.map_map, Function.comp_def, List.length_map] at hreport
  rw [hreport]
  refine ⟨by rw [hfailed], ?_, rfl⟩
  rw [length_flatMap_errors, hfailed]
  intro r hr
  obtain ⟨e, -, rfl⟩ := List.mem_map.1 hr
  rw [length_errors_checkFile]
  split <;> decide

/-- What the program leaves when it has checked some files, and some of them have errors. -/
structure Checked (files failed : Nat) (exit : Exit) : Prop where
  output : exit.report.output = s!"Checked {files} files, {failed} with errors\n"
  reports : exit.report.messages.length = failed
  marked : ∀ message ∈ exit.report.messages, Report.errorMark.toList <+: message.toList
  success : exit.code = 0 ↔ failed = 0

theorem checked_exit {r : Report} {files failed : Nat}
    (houtput : r.output = s!"Checked {files} files, {failed} with errors\n")
    (herrors : r.errors.length = failed) (hnotes : r.notes = []) (verbosity : Nat) :
    Checked files failed (r.heard verbosity).exit where
  output := houtput
  reports := by simp [Report.exit, Report.heard, Report.messages, hnotes, herrors]
  marked message hmessage := by
    simp only [Report.exit, Report.heard, Report.messages, hnotes, List.filter_nil, List.map_nil,
      List.nil_append] at hmessage
    obtain ⟨text, -, rfl⟩ := List.mem_map.1 hmessage
    simp
  success := by
    rw [← herrors]
    cases hr : r.errors <;> simp [Report.exit, Report.heard, Report.succeeded, hr]

/-- The number of files can be read off what is printed. -/
theorem Checked.files_eq {files files' failed failed' : Nat} {exit : Exit}
    (h : Checked files failed exit) (h' : Checked files' failed' exit) : files = files' := by
  have hdigits : ∀ n (rest : List Char),
      (Nat.toDigits 10 n ++ ' ' :: rest).takeWhile Char.isDigit = Nat.toDigits 10 n := by
    intro n rest
    rw [List.takeWhile_append_of_pos fun c hc =>
      Nat.isDigit_of_mem_toDigits (by decide) (by decide) hc]
    simp
  have hchars : ∀ n k : Nat, (s!"Checked {n} files, {k} with errors\n").toList =
      "Checked ".toList ++ (Nat.toDigits 10 n ++ ' ' :: (s!"files, {k} with errors\n").toList) := by
    intro n k
    simp [toString, Nat.repr]
  have hsame := congrArg String.toList (h.output.symm.trans h'.output)
  rw [hchars, hchars] at hsame
  have hnumber := congrArg (List.takeWhile Char.isDigit) (List.append_cancel_left hsame)
  rw [hdigits, hdigits] at hnumber
  have hvalue := congrArg (Nat.ofDigitChars 10 · 0) hnumber
  simpa only [Nat.ofDigitChars_toDigits (b := 10) (by decide) (by decide)] using hvalue

theorem execute_check {args : List String} {c : Command} {operand : Option String}
    (hread : Command.read args = .ok c) (haction : c.action = .check operand)
    {es : List (String × FileTree)} (hdir : tree.resolve (operand.getD ".") = .ok (.dir es)) :
    (execute tree.access args).run =
      ((checkDirectory tree.access (operand.getD ".")).run.heard c.verbosity).exit := by
  have hfile : tree.isFile (operand.getD ".") = false := by rw [FileTree.isFile, hdir]
  have hisDir : tree.isDir (operand.getD ".") = true := by rw [FileTree.isDir, hdir]
  simp only [execute, hread, perform, haction, act, check, FileTree.access, hfile, hisDir]
  rfl

/-- The files among what is checked are the source files below the directory. -/
theorem map_filter_checked {es : List (String × FileTree)} (hproper : (FileTree.dir es).Proper)
    (hpath : path ≠ "") :
    ((checked path (.dir es)).filter (·.2.isRegular)).map Prod.snd =
      (FileTree.dir es).sources.filter FileTree.isRegular := by
  calc ((checked path (.dir es)).filter (·.2.isRegular)).map Prod.snd
      = ((((FileTree.dir es).located path).map fun e => (Path.fileName? e.1, e.2)).filter
          fun met => met.1.any Path.isSourceName && met.2.isRegular).map Prod.snd := by
        rw [checked, List.filter_filter, List.filter_map, List.map_map]
        simp only [Function.comp_def, isSource_eq, Bool.and_comm]
    _ = (FileTree.dir es).sources.filter FileTree.isRegular := by
        rw [hproper.map_located hpath, FileTree.sources, List.filter_map, List.filter_filter]
        simp [FileTree.isRegular, List.filter_map, Function.comp_def, Bool.and_comm]

/-- The check of a directory counts the source files below it and the ones among them that cannot be
read as text or hold no program. It also counts what is no file but named as a source file, at or
below the directory that is checked, with an error unless its path leads to a program; which is what
it is itself, unless it is a link. So it counts source files alone if and only if there is nothing
else with such a name. -/
theorem check_counts {args : List String} {c : Command} {operand : Option String}
    (hread : Command.read args = .ok c) (haction : c.action = .check operand)
    {es : List (String × FileTree)} (hdir : tree.resolve (operand.getD ".") = .ok (.dir es))
    (hproper : (FileTree.dir es).Proper) :
    let files := (FileTree.dir es).sources.filter FileTree.isRegular
    let failed := files.countP fun e => !e.isProgram
    let others := (checked (operand.getD ".") (.dir es)).filter fun e => !e.2.isRegular
    let broken := others.countP fun e => !leadsToProgram tree e.1
    let exit := (execute tree.access args).run
    Checked (files.length + others.length) (failed + broken) exit ∧
      (∀ e ∈ others, e.2.isLink = false → leadsToProgram tree e.1 = e.2.isProgram) ∧
      (Checked files.length failed exit ↔ others = []) := by
  intro files failed others broken exit
  have hresolve : ∀ e ∈ checked (operand.getD ".") (.dir es), e.2.isLink = false →
      leadsToProgram tree e.1 = e.2.isProgram := by
    intro e he hlink
    rw [leadsToProgram, hproper.resolve_located hdir (List.mem_filter.1 he).1 hlink]
    rfl
  have hfiles := map_filter_checked hproper (FileTree.ne_empty_of_resolve hdir)
  -- whatever is counted, it is counted in the files and in the others
  have hsplit (p : String × FileTree → Bool) :=
    List.countP_eq_countP_filter_add (checked (operand.getD ".") (.dir es)) p (·.2.isRegular)
  have hlength : (checked (operand.getD ".") (.dir es)).length = files.length + others.length := by
    simpa only [List.countP_true, ← hfiles, List.length_map, files, others]
      using hsplit fun _ => true
  have hfailed : (checked (operand.getD ".") (.dir es)).countP (fun e => !leadsToProgram tree e.1) =
      failed + broken := by
    rw [hsplit]
    refine congrArg (· + broken) ?_
    simp only [failed, files, ← hfiles, List.countP_map]
    refine List.countP_congr fun e he => ?_
    obtain ⟨hchecked, hregular⟩ := List.mem_filter.1 he
    rw [hresolve e hchecked (FileTree.isLink_of_isRegular hregular)]
    rfl
  obtain ⟨houtput, herrors, hnotes⟩ := checkDirectory_report hdir
  rw [hlength, hfailed] at houtput
  rw [hfailed] at herrors
  have hexit : exit = _ := execute_check hread haction hdir
  have hchecked : Checked (files.length + others.length) (failed + broken) exit := by
    rw [hexit]
    exact checked_exit houtput herrors hnotes c.verbosity
  refine ⟨hchecked, fun e he => hresolve e (List.mem_filter.1 he).1, fun h => ?_, fun h => ?_⟩
  · have heq := h.files_eq hchecked
    exact List.eq_nil_of_length_eq_zero (by omega)
  · have hbroken : broken = 0 := by simp only [broken, h, List.countP_nil]
    rwa [h, hbroken] at hchecked

/-- Four files : a program, one that is none, one that is no text and one that may not be read. And
four others with such names : a directory, a link to the program, a link to nothing, and a pipe. -/
theorem check_counts_mixed :
    let denied : Except ReadError ByteArray := .error (.other "Permission denied (os error 13)")
    let files := ((((FileTree.dir []).addFile "a.rill" "var a;".toUTF8).addFile "lib/b.rill"
      "var".toUTF8).addFile "lib/c.rill" ⟨#[255]⟩).addFile "notes.txt" "var".toUTF8
    let tree := ((((files.add "lib/secret.rill" (.file denied)).addDir "d.rill").add "lib/e.rill"
      (.link "../a.rill")).add "f.rill" (.link "lost.rill")).add "pipe.rill" (.special denied)
    let exit := (execute tree.access ["check"]).run
    Checked 8 6 exit ∧ ¬Checked 4 3 exit := by
  intro denied files tree exit
  have hempty : (FileTree.dir []).Proper := .dir (by simp) .nil (by simp)
  have hfiles : files.Proper :=
    (((hempty.add _ (.file _)).add _ (.file _)).add _ (.file _)).add _ (.file _)
  have hproper : tree.Proper :=
    ((((hfiles.add _ (.file _)).addDir _).add _ (.link _)).add _ (.link _)).add _ (.special _)
  have hread : Command.read ["check"] = .ok ⟨none, 0, .check none⟩ := rfl
  have hdir : tree.resolve "." = .ok (.dir tree.entries) := rfl
  obtain ⟨hchecked, -, hiff⟩ := check_counts hread rfl hdir hproper.entries
  have hlength : ((FileTree.dir tree.entries).sources.filter FileTree.isRegular).length = 4 := by
    decide +kernel
  have hfailed : ((FileTree.dir tree.entries).sources.filter FileTree.isRegular).countP
      (fun e => !e.isProgram) = 3 := by decide +kernel
  have hothers : ((checked "." (.dir tree.entries)).filter fun e => !e.2.isRegular).length = 4 := by
    decide +kernel
  have hbroken : ((checked "." (.dir tree.entries)).filter fun e => !e.2.isRegular).countP
      (fun e => !leadsToProgram tree e.1) = 3 := by decide +kernel
  simp only [Option.getD_none, hlength, hfailed, hothers, hbroken] at hchecked hiff
  refine ⟨hchecked, fun h => ?_⟩
  rw [hiff.1 h] at hothers
  cases hothers

/-- The only file is in a directory that is named as a source file. The file holds a program, but
two files are counted, and one error. -/
theorem check_counts_directory :
    let tree := (FileTree.dir []).addFile "dir.rill/a.rill" "var a;".toUTF8
    let exit := (execute tree.access ["check", "."]).run
    (tree.sources.filter FileTree.isRegular).map FileTree.isProgram = [true] ∧
      exit.report.output = "Checked 2 files, 1 with errors\n" ∧ exit.code = 255 ∧
      ¬Checked 1 0 exit := by
  intro tree exit
  refine ⟨by decide +kernel, by decide +kernel, by decide +kernel, fun h => ?_⟩
  exact absurd h.reports (by decide +kernel)

end Command

end Rill
