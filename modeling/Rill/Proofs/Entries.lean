import Rill.Files.Tree

/-!
# Entries by their paths

A walk over a directory gives paths, each made by joining the name of an entry to the path of its
directory. In a tree whose names are proper (`FileTree.Proper`), such a path has the name of the
entry as its last part, and it leads to the entry again, unless the entry is a link. So a walk meets
everything below a directory exactly once (`FileTree.Proper.map_located`,
`FileTree.Proper.resolve_located`). What is below a directory is listed by `FileTree.contents`,
which does not know of paths.

Trees to which something is added stay proper.
-/

namespace Rill

/-! ## Segments -/

namespace Path

/-- What can name an entry of a directory. -/
structure IsName (name : String) : Prop where
  busy : isIdle name = false
  ne_up : name ≠ ".."
  slash : '/' ∉ name.toList

variable {path name : String}

/-- A name after a slash is the last segment of a path. -/
theorem segments_append_slash (path name : String) (h : '/' ∉ name.toList) :
    segments (path ++ "/" ++ name) = segments path ++ [name] := by
  have hchars : (path ++ "/" ++ name).toList = path.toList ++ '/' :: name.toList := by simp
  rw [segments, hchars, List.splitOn_append_cons_self, List.splitOn_eq_singleton h, List.map_append,
    List.map_singleton, String.ofList_toList]
  rfl

/-- Joining a name puts it behind the segments of the path, less an empty one at their end. -/
theorem exists_segments_join (hpath : path ≠ "") (h : IsName name) :
    ∃ xs, (segments path = xs ∨ segments path = xs ++ [""]) ∧
    segments (join path name) = xs ++ [name] := by
  rw [join, if_neg hpath]
  split
  next hlast =>
    obtain ⟨chars, hchars⟩ := List.getLast?_eq_some_iff.1 hlast
    have hsplit : path = String.ofList chars ++ "/" := by
      rw [← String.toList_inj, hchars]
      simp
    refine ⟨segments (String.ofList chars), .inr ?_, ?_⟩
    · have hempty := segments_append_slash (String.ofList chars) "" (by simp)
      rwa [String.append_empty, ← hsplit] at hempty
    · rw [hsplit, segments_append_slash _ _ h.slash]
  next => exact ⟨segments path, .inl rfl, segments_append_slash path name h.slash⟩

theorem join_ne_empty (hpath : path ≠ "") : join path name ≠ "" := by
  rw [join, if_neg hpath]
  split <;> simp [hpath]

/-- Idle segments are dropped at the end only up to a name. -/
theorem getLast?_trimIdle (xs : List String) (h : IsName name) :
    (trimIdle (xs ++ [name])).getLast? = some name := by
  cases xs with
  | nil => rfl
  | cons first rest => simp [trimIdle, h.busy, List.getLast?_cons]

/-- The name of a path that was joined is the one that was added. -/
theorem fileName?_join (hpath : path ≠ "") (h : IsName name) :
    fileName? (join path name) = some name := by
  obtain ⟨xs, -, hjoin⟩ := exists_segments_join hpath h
  rw [fileName?, hjoin, getLast?_trimIdle xs h]
  simp [h.busy, h.ne_up]

end Path

/-! ## Proper trees -/

namespace FileTree

/-- In every directory the entries have names and stand in the order of them. -/
inductive Proper : FileTree → Prop
  | file (content : Except ReadError ByteArray) : Proper (.file content)
  | link (target : String) : Proper (.link target)
  | special (content : Except ReadError ByteArray) : Proper (.special content)
  | dir {es : List (String × FileTree)} (names : ∀ e ∈ es, Path.IsName e.1)
      (order : es.Pairwise (·.1 < ·.1))
      (inner : ∀ e ∈ es, Proper e.2) : Proper (.dir es)

variable {tree t : FileTree} {path name : String} {es : List (String × FileTree)}

/-- An entry of a directory is found by its name, since names differ. -/
theorem lookup_of_mem (order : es.Pairwise (·.1 < ·.1)) (h : (name, t) ∈ es) :
    es.lookup name = some t := by
  obtain ⟨before, after, rfl⟩ := List.append_of_mem h
  refine List.lookup_eq_some_iff.2 ⟨before, after, rfl, ?_⟩
  intro e he
  have hlt : e.1 < name := (List.pairwise_append.1 order).2.2 e he (name, t) List.mem_cons_self
  refine bne_iff_ne.2 fun heq => ?_
  rw [heq] at hlt
  exact String.lt_irrefl _ hlt

/-- Whether a tree is a link. -/
def isLink : FileTree → Bool
  | .link _ => true
  | _ => false

/-- A way to follow links that takes up again, with more segments behind, where it has come to a
directory. -/
def Resumes (root : FileTree) (es : List (String × FileTree))
    (act : List String → Except ReadError FileTree) : Prop :=
  act [] = .ok (.dir es) → ∃ n above, ∀ ys, act ys = followWith (atLink root n) ys above (.dir es)

/-- Whatever follows segments that lead to a directory is followed from there. -/
theorem resumes_followWith {root : FileTree} {n : Nat}
    (hlinks : ∀ target rest above here,
      Resumes root es fun ys => atLink root n target (rest ++ ys) above here)
    (xs : List String) (above : List FileTree) (tree : FileTree) :
    Resumes root es fun ys => followWith (atLink root n) (xs ++ ys) above tree := by
  induction xs generalizing above tree with
  | nil =>
    intro h
    simp only [List.nil_append, followWith] at h
    cases h
    exact ⟨n, above, fun _ => rfl⟩
  | cons x xs ih =>
    cases tree with
    | dir entries =>
      simp only [List.cons_append, followWith]
      by_cases hidle : Path.isIdle x
      · simp only [hidle, if_true]
        exact ih above (.dir entries)
      · by_cases hup : x = ".."
        · cases above <;> simp only [hup, if_true] <;> exact ih _ _
        · simp only [hidle, hup, if_false]
          cases hlookup : entries.lookup x with
          | none => exact fun h => by cases h
          | some inner =>
            cases inner with
            | link target => exact hlinks target xs above (.dir entries)
            | _ => exact ih (.dir entries :: above) _
    | _ => exact fun h => by cases h

/-- A link that leads to a directory takes up again with the segments behind it. -/
theorem resumes_atLink (root : FileTree) (n : Nat) (target : String) (rest : List String)
    (above : List FileTree) (here : FileTree) :
    Resumes root es fun ys => atLink root n target (rest ++ ys) above here := by
  induction n generalizing target rest above here with
  | zero => exact fun h => by cases h
  | succ n ih =>
    simp only [atLink, ← List.append_assoc]
    split
    · exact resumes_followWith ih _ [] root
    · exact resumes_followWith ih _ above here

/-- A way to a directory can be followed by further segments. -/
theorem exists_followWith_append {root : FileTree} {n : Nat} {xs : List String}
    {above : List FileTree} (h : followWith (atLink root n) xs above tree = .ok (.dir es)) :
    ∃ m above', ∀ ys, followWith (atLink root n) (xs ++ ys) above tree =
      followWith (atLink root m) ys above' (.dir es) :=
  resumes_followWith (resumes_atLink root n) xs above tree (by simpa using h)

/-- An empty segment before a name makes no difference. -/
theorem followWith_idle
    {onLink : String → List String → List FileTree → FileTree → Except ReadError FileTree}
    (honLink : ∀ target rest above here,
      onLink target (rest ++ ["", name]) above here = onLink target (rest ++ [name]) above here)
    (xs : List String) (above : List FileTree) (tree : FileTree) :
    followWith onLink (xs ++ ["", name]) above tree =
      followWith onLink (xs ++ [name]) above tree := by
  induction xs generalizing above tree with
  | nil => cases tree <;> rfl
  | cons x xs ih =>
    cases tree with
    | dir es => simp only [List.cons_append, followWith, ih, honLink]
    | _ => rfl

/-- An empty segment behind a link changes nothing. -/
theorem atLink_idle (root : FileTree) (n : Nat) (target : String) (rest : List String)
    (above : List FileTree) (here : FileTree) :
    atLink root n target (rest ++ ["", name]) above here =
      atLink root n target (rest ++ [name]) above here := by
  induction n generalizing target rest above here with
  | zero => rfl
  | succ n ih => simp only [atLink, ← List.append_assoc, followWith_idle ih]

/-- The name of an entry that is no link leads to the entry. -/
theorem followWith_name
    {onLink : String → List String → List FileTree → FileTree → Except ReadError FileTree}
    (h : Path.IsName name) (hlookup : es.lookup name = some t) (ht : t.isLink = false)
    (above : List FileTree) : followWith onLink [name] above (.dir es) = .ok t := by
  cases t with
  | link target => cases ht
  | _ => simp [followWith, h.busy, h.ne_up, hlookup]

theorem ne_empty_of_resolve (h : tree.resolve path = .ok t) : path ≠ "" := by
  rintro rfl
  cases h

/-- The path of an entry of a directory leads to the entry. -/
theorem resolve_join (hdir : tree.resolve path = .ok (.dir es)) (h : Path.IsName name)
    (hlookup : es.lookup name = some t) (ht : t.isLink = false) :
    tree.resolve (Path.join path name) = .ok t := by
  have hpath := ne_empty_of_resolve hdir
  rw [resolve, if_neg hpath] at hdir
  rw [resolve, if_neg (Path.join_ne_empty hpath)]
  obtain ⟨n, above, hfollow⟩ := exists_followWith_append hdir
  obtain ⟨xs, hxs | hxs, hjoin⟩ := Path.exists_segments_join hpath h
  · rw [hjoin, ← hxs, hfollow, followWith_name h hlookup ht]
  · rw [hjoin, ← followWith_idle (atLink_idle tree maxLinks)]
    have happend := hfollow [name]
    rw [hxs, List.append_assoc, followWith_name h hlookup ht] at happend
    exact happend

/-! ## Walks -/

mutual

/-- All that lies below a tree, with the names. -/
def contents : FileTree → List (String × FileTree)
  | .dir es => entryContents es
  | _ => []

/-- The entries of a directory and all that lies below them. -/
def entryContents : List (String × FileTree) → List (String × FileTree)
  | [] => []
  | (name, tree) :: rest => (name, tree) :: (contents tree ++ entryContents rest)

end

/-- A walk meets everything once, under a path that has its name. -/
theorem Proper.map_located (h : t.Proper) (hpath : path ≠ "") :
    (located path t).map (fun e => (Path.fileName? e.1, e.2)) =
      (Path.fileName? path, t) :: t.contents.map fun e => (some e.1, e.2) := by
  induction h generalizing path with
  | file | link | special => simp [located, contents]
  | @dir es names order inner ih =>
    -- the entries of a directory, from any of them on
    have hentries : ∀ l, (∀ e ∈ l, e ∈ es) →
        (locatedEntries path l).map (fun e => (Path.fileName? e.1, e.2)) =
          (entryContents l).map fun e => (some e.1, e.2) := by
      intro l hl
      induction l with
      | nil => rfl
      | cons e rest ihl =>
        obtain ⟨name, t⟩ := e
        have hmem : (name, t) ∈ es := hl _ List.mem_cons_self
        have hjoin : Path.join path name ≠ "" := Path.join_ne_empty hpath
        have hinner := ih _ hmem hjoin
        have hrest := ihl fun e he => hl e (List.mem_cons_of_mem _ he)
        rw [Path.fileName?_join hpath (names _ hmem)] at hinner
        rw [locatedEntries, entryContents, List.map_append, hinner, hrest]
        simp
    rw [located, contents, List.map_cons, hentries es fun _ he => he]

/-- Each path of a walk leads to what was met under it, unless that is a link. -/
theorem Proper.resolve_located (h : t.Proper) (hpath : tree.resolve path = .ok t)
    {e : String × FileTree} (he : e ∈ located path t) (hlink : e.2.isLink = false) :
    tree.resolve e.1 = .ok e.2 := by
  induction h generalizing path with
  | file | link | special =>
    simp only [located, List.mem_singleton] at he
    rw [he]
    exact hpath
  | @dir es names order inner ih =>
    have hentries : ∀ l, (∀ e ∈ l, e ∈ es) → e ∈ locatedEntries path l →
        tree.resolve e.1 = .ok e.2 := by
      intro l hl he
      induction l with
      | nil => cases he
      | cons entry rest ihl =>
        obtain ⟨name, t⟩ := entry
        have hmem : (name, t) ∈ es := hl _ List.mem_cons_self
        rcases List.mem_append.1 he with he | he
        · cases ht : t.isLink with
          | true =>
            -- a link is met under its own path only
            cases t with
            | link target =>
              simp only [located, List.mem_singleton] at he
              rw [he] at hlink
              cases hlink
            | _ => cases ht
          | false =>
            exact ih _ hmem (resolve_join hpath (names _ hmem) (lookup_of_mem order hmem) ht) he
        · exact ihl (fun e he => hl e (List.mem_cons_of_mem _ he)) he
    rcases List.mem_cons.1 he with rfl | he
    · exact hpath
    · exact hentries es (fun _ he => he) he

/-! ## Trees that are built -/

/-- An inserted entry comes to those that were there. -/
theorem mem_insertEntry {e : String × FileTree} (h : e ∈ insertEntry name t es) :
    e = (name, t) ∨ e ∈ es := by
  induction es with
  | nil => exact .inl (List.mem_singleton.1 h)
  | cons other rest ih =>
    obtain ⟨other, old⟩ := other
    rw [insertEntry] at h
    split at h
    · exact (List.mem_cons.1 h).imp_right (List.mem_cons_of_mem _)
    · split at h
      · exact List.mem_cons.1 h
      · obtain rfl | h := List.mem_cons.1 h
        · exact .inr List.mem_cons_self
        · exact (ih h).imp_right (List.mem_cons_of_mem _)

/-- An entry is inserted where its name belongs. -/
theorem pairwise_insertEntry (order : es.Pairwise (·.1 < ·.1)) :
    (insertEntry name t es).Pairwise (·.1 < ·.1) := by
  induction es with
  | nil => exact List.pairwise_singleton _ _
  | cons other rest ih =>
    obtain ⟨other, old⟩ := other
    obtain ⟨hother, hrest⟩ := List.pairwise_cons.1 order
    rw [insertEntry]
    split
    next heq =>
      subst heq
      exact List.pairwise_cons.2 ⟨hother, hrest⟩
    next hne =>
      split
      next hlt =>
        refine List.pairwise_cons.2 ⟨fun e he => ?_, order⟩
        obtain rfl | he := List.mem_cons.1 he
        · exact hlt
        · exact String.lt_trans hlt (hother e he)
      next hnot =>
        refine List.pairwise_cons.2 ⟨fun e he => ?_, ih hrest⟩
        obtain rfl | he := mem_insertEntry he
        · refine Decidable.byContradiction fun hge => hne ?_
          exact String.le_antisymm (String.not_lt.1 hge) (String.not_lt.1 hnot)
        · exact hother e he

/-- The entries of a proper tree make a proper directory. -/
theorem Proper.entries (h : t.Proper) : (FileTree.dir t.entries).Proper := by
  cases h with
  | dir names order inner => exact .dir names order inner
  | _ => exact .dir (by simp [FileTree.entries]) .nil (by simp [FileTree.entries])

/-- What is at a name, or the empty directory that is made there. -/
theorem Proper.lookup (h : t.Proper) (name : String) :
    ((t.entries.lookup name).getD (.dir [])).Proper := by
  cases hlookup : t.entries.lookup name with
  | none => exact .dir (by simp) .nil (by simp)
  | some inner =>
    obtain ⟨before, after, hentries, -⟩ := List.lookup_eq_some_iff.1 hlookup
    cases h.entries with
    | dir _ _ hinner => exact hinner (name, inner) (by simp [hentries])

theorem Proper.insertEntry (h : t.Proper) (hname : Path.IsName name) (htree : tree.Proper) :
    (FileTree.dir (insertEntry name tree t.entries)).Proper := by
  cases h.entries with
  | dir names order inner =>
    refine .dir (fun e he => ?_) (pairwise_insertEntry order) (fun e he => ?_)
    · obtain rfl | he := mem_insertEntry he
      · exact hname
      · exact names e he
    · obtain rfl | he := mem_insertEntry he
      · exact htree
      · exact inner e he

/-- To put something in a place of a proper tree keeps it proper. -/
theorem Proper.insert {leaf : FileTree} (hleaf : leaf.Proper) {place : List String}
    (hplace : ∀ name ∈ place, Path.IsName name) (h : t.Proper) : (insert leaf place t).Proper := by
  induction place generalizing t with
  | nil => exact hleaf
  | cons name place ih =>
    rw [List.forall_mem_cons] at hplace
    exact h.insertEntry hplace.1 (ih hplace.2 (h.lookup name))

theorem Proper.makeDir {place : List String} (hplace : ∀ name ∈ place, Path.IsName name)
    (h : t.Proper) :
    (makeDir place t).Proper := by
  induction place generalizing t with
  | nil => exact h
  | cons name place ih =>
    rw [List.forall_mem_cons] at hplace
    exact h.insertEntry hplace.1 (ih hplace.2 (h.lookup name))

end FileTree

namespace Path

/-- Entering a segment keeps a place made of names. -/
theorem isName_enter {place : List String} {segment : String} (hplace : ∀ name ∈ place, IsName name)
    (h : '/' ∉ segment.toList) : ∀ name ∈ enter place segment, IsName name := by
  rw [enter]
  split
  next => exact hplace
  next hidle =>
    split
    next => exact fun name hname => hplace name (List.dropLast_subset _ hname)
    next hup =>
      intro name hname
      obtain hname | hname := List.mem_append.1 hname
      · exact hplace name hname
      · rw [List.mem_singleton.1 hname]
        exact ⟨Bool.eq_false_iff.2 hidle, hup, h⟩

theorem not_mem_of_mem_splitOn {c : Char} {chars part : List Char} (h : part ∈ chars.splitOn c) :
    c ∉ part := by
  induction chars generalizing part with
  | nil =>
    rw [List.splitOn_nil] at h
    simp [List.mem_singleton.1 h]
  | cons first rest ih =>
    rw [List.splitOn_cons_eq_if_modifyHead] at h
    split at h
    next =>
      obtain rfl | h := List.mem_cons.1 h
      · exact List.not_mem_nil
      · exact ih h
    next hne =>
      obtain ⟨head, tail, hsplit⟩ := List.exists_cons_of_ne_nil (List.splitOn_ne_nil c rest)
      rw [hsplit] at h ih
      obtain rfl | h := List.mem_cons.1 h
      · intro hmem
        obtain rfl | hmem := List.mem_cons.1 hmem
        · exact hne (beq_self_eq_true _)
        · exact ih List.mem_cons_self hmem
      · exact ih (List.mem_cons_of_mem _ h)

/-- No segment of a path has a slash in it. -/
theorem slash_not_mem_segments {path segment : String} (h : segment ∈ segments path) :
    '/' ∉ segment.toList := by
  obtain ⟨part, hpart, rfl⟩ := List.mem_map.1 h
  rw [String.toList_ofList]
  exact not_mem_of_mem_splitOn hpart

end Path

namespace FileTree

variable {t : FileTree}

/-- To make the directories of a way keeps a tree proper. -/
theorem Proper.makeWay (place : List String) {way : List String}
    (hway : ∀ segment ∈ way, '/' ∉ segment.toList) (hplace : ∀ name ∈ place, Path.IsName name)
    (h : t.Proper) :
    (∀ name ∈ (makeWay place way t).1, Path.IsName name) ∧ (makeWay place way t).2.Proper := by
  induction way generalizing place t with
  | nil => exact ⟨hplace, h⟩
  | cons segment rest ih =>
    rw [List.forall_mem_cons] at hway
    have hnext := Path.isName_enter hplace hway.1
    exact ih _ hway.2 hnext (h.makeDir hnext)

/-- A tree stays proper when something proper is put into it, whatever the path is. -/
theorem Proper.add (h : t.Proper) (path : String) {leaf : FileTree} (hleaf : leaf.Proper) :
    (t.add path leaf).Proper := by
  have hway : ∀ segment ∈ (Path.segments path).dropLast, '/' ∉ segment.toList :=
    fun _ hsegment => Path.slash_not_mem_segments (List.dropLast_subset _ hsegment)
  obtain ⟨hplace, htree⟩ := h.makeWay [] hway (by simp)
  refine Proper.insert hleaf ?_ htree
  cases hlast : (Path.segments path).getLast? with
  | none => exact hplace
  | some segment =>
    exact Path.isName_enter hplace (Path.slash_not_mem_segments (List.mem_of_getLast? hlast))

/-- A tree stays proper when a directory is added. -/
theorem Proper.addDir (h : t.Proper) (path : String) : (t.addDir path).Proper :=
  (h.makeWay [] (fun _ => Path.slash_not_mem_segments) (by simp)).2

end FileTree

end Rill
