import CallSift.Discovery
import CallSift.Proofs.Text.Bytes
import CallSift.Proofs.Text.Pieces

/-!
# Names in paths

A name is what may stand between two slashes and lead downwards: not empty, without a
slash, and neither of the two that stand for a directory already reached. A name that
is appended to a path comes behind its components, and behind the names that are
followed from it.

* `isName_of_mem_components`: the normal components of a path are names.
* `components_below` and `steps_below`: what it means to append names to a path.
-/
namespace CallSift

/-- Bytes that name an entry of a directory. -/
structure IsName (name : Bytes) : Prop where
  nonempty : name ≠ .empty
  notCurrent : name ≠ "."
  notParent : name ≠ ".."
  noSlash : Bytes.slash ∉ name.toList

instance (name : Bytes) : Decidable (IsName name) :=
  decidable_of_iff (name ≠ .empty ∧ name ≠ "." ∧ name ≠ ".." ∧ Bytes.slash ∉ name.toList)
    ⟨fun ⟨hsome, hcurrent, hparent, hslash⟩ => ⟨hsome, hcurrent, hparent, hslash⟩,
      fun ⟨hsome, hcurrent, hparent, hslash⟩ => ⟨hsome, hcurrent, hparent, hslash⟩⟩

namespace IsName

variable {name : Bytes}

theorem toList_ne_nil (h : IsName name) : name.toList ≠ [] :=
  fun hempty => h.nonempty (Bytes.ext hempty)

theorem toList_ne_current (h : IsName name) : name.toList ≠ [Bytes.dot] :=
  fun hcurrent => h.notCurrent (Bytes.ext hcurrent)

theorem toList_ne_parent (h : IsName name) : name.toList ≠ [Bytes.dot, Bytes.dot] :=
  fun hparent => h.notParent (Bytes.ext hparent)

end IsName

namespace Path

/-! ## Names among components -/

theorem ofPiece?_eq_normal {piece : List UInt8} {name : Bytes} :
    Component.ofPiece? piece = some (.normal name) ↔
      (piece ≠ [] ∧ piece ≠ [Bytes.dot] ∧ piece ≠ [Bytes.dot, Bytes.dot]) ∧ ⟨piece⟩ = name := by
  unfold Component.ofPiece?
  by_cases hempty : piece = [] ∨ piece = [Bytes.dot]
  · rw [if_pos hempty]
    simp only [reduceCtorEq, false_iff, not_and]
    rintro ⟨h, h', -⟩
    rcases hempty with hempty | hempty
    · exact absurd hempty h
    · exact absurd hempty h'
  · obtain ⟨h, h'⟩ := not_or.mp hempty
    rw [if_neg hempty]
    by_cases hparent : piece = [Bytes.dot, Bytes.dot] <;> simp [hparent, h, h']

theorem mem_componentsOf {pieces : List (List UInt8)} {name : Bytes}
    (h : .normal name ∈ componentsOf pieces) :
    ∃ piece ∈ pieces, Component.ofPiece? piece = some (.normal name) := by
  unfold componentsOf at h
  split at h
  · cases h
  · cases h
  · rcases List.mem_cons.mp h with h | h
    · cases h
    · obtain ⟨piece, hpiece, hname⟩ := List.mem_filterMap.mp h
      exact ⟨piece, List.mem_cons_of_mem _ hpiece, hname⟩
  · rename_i first _ _ _
    rcases List.mem_append.mp h with h | h
    · refine ⟨first, List.mem_cons_self, ?_⟩
      unfold leading at h
      split at h
      · simp at h
      · simpa using h
    · obtain ⟨piece, hpiece, hname⟩ := List.mem_filterMap.mp h
      exact ⟨piece, List.mem_cons_of_mem _ hpiece, hname⟩

theorem isName_of_mem_components {path : Path} {name : Bytes}
    (h : .normal name ∈ path.components) : IsName name := by
  obtain ⟨piece, hpiece, hname⟩ := mem_componentsOf h
  obtain ⟨⟨hempty, hcurrent, hparent⟩, rfl⟩ := ofPiece?_eq_normal.mp hname
  have hslash := Text.not_mem_of_mem_splitAt hpiece
  exact
    { nonempty := fun h => hempty (Bytes.ext_iff.mp h)
      notCurrent := fun h => hcurrent (Bytes.ext_iff.mp h)
      notParent := fun h => hparent (Bytes.ext_iff.mp h)
      noSlash := hslash }

/-! ## A name behind a path -/

theorem ofPiece?_name {name : Bytes} (h : IsName name) :
    Component.ofPiece? name.toList = some (.normal name) :=
  ofPiece?_eq_normal.mpr
    ⟨⟨h.toList_ne_nil, h.toList_ne_current, h.toList_ne_parent⟩, rfl⟩

theorem toList_of_isAbsolute {path : Path} (h : path.isAbsolute = true) :
    ∃ cs, path.bytes.toList = Bytes.slash :: cs := by
  cases htext : path.bytes.toList with
  | nil => simp [isAbsolute, htext] at h
  | cons c cs =>
    obtain rfl : c = Bytes.slash := by simpa [isAbsolute, htext] using h
    exact ⟨cs, rfl⟩

theorem bytes_ne_of_isAbsolute {path : Path} (h : path.isAbsolute = true) :
    path.bytes ≠ .empty := by
  intro hempty
  simp [isAbsolute, hempty] at h

theorem isAbsolute_of_not_mem {text : Bytes} (h : Bytes.slash ∉ text.toList) :
    isAbsolute ⟨text⟩ = false := by
  have hslash : text.toList.head? ≠ some Bytes.slash := fun hhead => h (List.mem_of_mem_head? hhead)
  simpa [isAbsolute] using hslash

theorem isAbsolute_name {name : Bytes} (h : IsName name) : isAbsolute ⟨name⟩ = false :=
  isAbsolute_of_not_mem h.noSlash

/-- A slash stands between the last piece of a path and a relative path that is appended; a slash at
the end of the path, which leaves an empty piece behind it, is not doubled. -/
theorem pieces_push {path relative : Path} (hpath : path.bytes ≠ .empty)
    (h : relative.isAbsolute = false) :
    ∃ pieces, Text.splitAt Bytes.slash (path.push relative).bytes.toList =
        pieces ++ Text.splitAt Bytes.slash relative.bytes.toList ∧
      pieces ≠ [] ∧
      (Text.splitAt Bytes.slash path.bytes.toList = pieces ∧ pieces ≠ [[]] ∨
        Text.splitAt Bytes.slash path.bytes.toList = pieces ++ [[]]) := by
  have hsome : ∀ cs : List UInt8, Text.splitAt Bytes.slash cs ≠ [] := by
    intro cs hnil
    obtain ⟨piece, rest, hs⟩ := Text.splitAt_eq_cons Bytes.slash cs
    rw [hnil] at hs
    cases hs
  unfold push
  rw [h]
  by_cases hlast : path.bytes.toList.getLast? = some Bytes.slash
  · obtain ⟨before, hbefore⟩ := List.getLast?_eq_some_iff.mp hlast
    refine ⟨Text.splitAt Bytes.slash before, ?_, hsome before, .inr ?_⟩
    · rw [if_neg (by simp), if_pos (.inr hlast), Bytes.toList_append, hbefore,
        List.append_assoc, List.singleton_append, Text.splitAt_append]
    · rw [hbefore, Text.splitAt_append]
      rfl
  · refine ⟨Text.splitAt Bytes.slash path.bytes.toList, ?_, hsome _, .inl ⟨rfl, ?_⟩⟩
    · rw [if_neg (by simp), if_neg (not_or.mpr ⟨hpath, hlast⟩), Bytes.toList_append,
        Bytes.toList_append, List.append_assoc]
      exact Text.splitAt_append _ _
    · intro hempty
      cases hcs : path.bytes.toList with
      | nil => exact hpath (Bytes.toList_eq_nil.mp hcs)
      | cons c cs =>
        rw [hcs] at hempty
        by_cases hc : c = Bytes.slash
        · subst hc
          rw [Text.splitAt_separator] at hempty
          exact hsome cs (List.cons.inj hempty).2
        · obtain ⟨piece, rest, -, hcons⟩ := Text.splitAt_cons hc cs
          rw [hcons] at hempty
          cases hempty

theorem componentsOf_cons {first : List UInt8} {rest : List (List UInt8)}
    (h : first ≠ [] ∨ rest ≠ []) : componentsOf (first :: rest) =
      (if first = [] then [.root] else leading first) ++ rest.filterMap Component.ofPiece? := by
  cases first with
  | cons c first =>
    rw [if_neg (List.cons_ne_nil c first)]
    rfl
  | nil =>
    obtain ⟨second, rest, rfl⟩ := List.exists_cons_of_ne_nil (h.resolve_left (absurd rfl))
    rfl

theorem componentsOf_append {pieces more : List (List UInt8)} (hpieces : pieces ≠ [])
    (hmore : more ≠ []) : componentsOf (pieces ++ more) =
      componentsOf (pieces ++ [[]]) ++ more.filterMap Component.ofPiece? := by
  obtain ⟨first, rest, rfl⟩ := List.exists_cons_of_ne_nil hpieces
  have hnone : Component.ofPiece? [] = none := rfl
  rw [List.cons_append, List.cons_append, componentsOf_cons (.inr (by simp [hmore])),
    componentsOf_cons (.inr (by simp))]
  simp [List.filterMap_append, hnone]

theorem componentsOf_append_empty {pieces : List (List UInt8)} (hpieces : pieces ≠ [])
    (h : pieces ≠ [[]]) : componentsOf (pieces ++ [[]]) = componentsOf pieces := by
  obtain ⟨first, rest, rfl⟩ := List.exists_cons_of_ne_nil hpieces
  have hproper : first ≠ [] ∨ rest ≠ [] := by
    refine Decidable.or_iff_not_imp_left.mpr fun hfirst hrest => h ?_
    rw [hrest, Decidable.not_not.mp hfirst]
  have hnone : Component.ofPiece? [] = none := rfl
  rw [List.cons_append, componentsOf_cons (.inr (by simp)), componentsOf_cons hproper]
  simp [List.filterMap_append, hnone]

theorem components_of_empty {path : Path} (h : path.bytes = .empty) : path.components = [] := by
  simp [components, h, Text.splitAt, componentsOf]

/-- The pieces of a relative path come behind the components of what it is appended to. -/
theorem components_push_relative {path relative : Path} (hpath : path.bytes ≠ .empty)
    (h : relative.isAbsolute = false) : (path.push relative).components =
      path.components ++
        (Text.splitAt Bytes.slash relative.bytes.toList).filterMap Component.ofPiece? := by
  obtain ⟨pieces, hpush, hsome, hcases⟩ := pieces_push hpath h
  obtain ⟨first, rest, hmore⟩ := Text.splitAt_eq_cons Bytes.slash relative.bytes.toList
  rw [components, components, hpush, componentsOf_append hsome (by simp [hmore])]
  rcases hcases with ⟨hself, hproper⟩ | hslash
  · rw [hself, componentsOf_append_empty hsome hproper]
  · rw [hslash]

/-- One more component is appended by the text that stands for it. -/
theorem components_push_piece (path : Path) {text : Bytes} {component : Component}
    (hslash : Bytes.slash ∉ text.toList)
    (hpiece : Component.ofPiece? text.toList = some component) :
    (path.push ⟨text⟩).components = path.components ++ [component] := by
  have hrelative := isAbsolute_of_not_mem hslash
  by_cases hpath : path.bytes = .empty
  · have hcurrent : text.toList ≠ [Bytes.dot] := fun hdot => by
      rw [hdot] at hpiece; cases hpiece
    have hkept : text.toList ≠ [] := fun hempty => by
      rw [hempty] at hpiece; cases hpiece
    rw [components_of_empty hpath, components, push, hrelative, if_neg (by simp),
      if_pos (.inl hpath), Bytes.toList_append, hpath, Bytes.toList_empty, List.nil_append,
      Text.splitAt_of_not_mem hslash, componentsOf_cons (.inl hkept), if_neg hkept, leading,
      if_neg hcurrent, hpiece]
    rfl
  · rw [components_push_relative hpath hrelative, Text.splitAt_of_not_mem hslash,
      List.filterMap_cons_some hpiece, List.filterMap_nil]

theorem components_push (path : Path) {name : Bytes} (h : IsName name) :
    (path.push ⟨name⟩).components = path.components ++ [.normal name] :=
  components_push_piece path h.noSlash (ofPiece?_name h)

theorem names_push {path : Path} (hpath : path.bytes ≠ .empty) {name : Bytes} (h : IsName name) :
    (path.push ⟨name⟩).names = path.names ++ [name] := by
  have hkept := h.toList_ne_nil
  obtain ⟨pieces, hpush, -, hcases⟩ := pieces_push hpath (isAbsolute_name h)
  rw [Text.splitAt_of_not_mem h.noSlash] at hpush
  unfold names
  rcases hcases with ⟨hself, -⟩ | hslash
  · simp [hpush, hself, List.filter_append, hkept]
  · simp [hpush, hslash, List.filter_append, hkept]

/-- The text of a path with a relative one behind it. -/
theorem bytes_push_relative (path : Path) {relative : Path} (h : relative.isAbsolute = false) :
    (path.push relative).bytes = path.bytes ++ relative.bytes ∨
      (path.push relative).bytes = path.bytes ++ "/" ++ relative.bytes := by
  unfold push
  rw [h, if_neg (by simp)]
  split
  · exact .inl rfl
  · exact .inr rfl

theorem bytes_push (path : Path) {name : Bytes} (h : IsName name) :
    (path.push ⟨name⟩).bytes = path.bytes ++ name ∨
      (path.push ⟨name⟩).bytes = path.bytes ++ "/" ++ name :=
  bytes_push_relative path (isAbsolute_name h)

theorem endsInSlash_push_piece (path : Path) {text : Bytes} (hsome : text ≠ .empty)
    (hslash : Bytes.slash ∉ text.toList) : (path.push ⟨text⟩).endsInSlash = false := by
  have hlast : text.toList.getLast? ≠ some Bytes.slash := fun hlast =>
    hslash (List.mem_of_mem_getLast? hlast)
  obtain ⟨c, cs, hcs⟩ : ∃ c cs, text.toList = c :: cs :=
    List.exists_cons_of_ne_nil fun hempty => hsome (Bytes.toList_eq_nil.mp hempty)
  rcases bytes_push_relative path (isAbsolute_of_not_mem hslash) with htext | htext <;>
    simp [endsInSlash, htext, List.getLast?_append, hcs] at hlast ⊢ <;> exact hlast

theorem endsInSlash_push (path : Path) {name : Bytes} (h : IsName name) :
    (path.push ⟨name⟩).endsInSlash = false :=
  endsInSlash_push_piece path h.nonempty h.noSlash

/-- A slash comes between a path and a name where the path does not end in one. -/
theorem bytes_push_behind {path : Path} (hpath : path.bytes ≠ .empty)
    (hslash : path.endsInSlash = false) {name : Bytes} (h : IsName name) :
    (path.push ⟨name⟩).bytes = path.bytes ++ "/" ++ name := by
  have hlast : ¬ path.bytes.toList.getLast? = some Bytes.slash := by
    simpa [endsInSlash] using hslash
  rw [push, isAbsolute_name h, if_neg (by simp), if_neg (not_or.mpr ⟨hpath, hlast⟩)]

/-- Whatever stands behind other components can be taken away, except the root. -/
theorem parent?_append (components : List Component) {last : Component} (h : last ≠ .root) :
    parent? (components ++ [last]) = some components := by
  unfold parent?
  rw [List.getLast?_concat, List.dropLast_concat]
  cases last with
  | root => exact absurd rfl h
  | _ => rfl

/-- Names stay when components are brought to normal form. -/
theorem foldl_fold_normal (kept : List Component) (names : List Bytes) :
    (names.map Component.normal).foldl fold kept = kept ++ names.map .normal := by
  induction names generalizing kept with
  | nil => simp
  | cons name rest ih => simp [fold, ih]

/-- A path with something behind it is absolute if it was. -/
theorem isAbsolute_push_relative {path relative : Path} (hpath : path.bytes ≠ .empty)
    (h : relative.isAbsolute = false) : (path.push relative).isAbsolute = path.isAbsolute := by
  obtain ⟨c, cs, hcs⟩ : ∃ c cs, path.bytes.toList = c :: cs :=
    List.exists_cons_of_ne_nil fun hempty => hpath (Bytes.toList_eq_nil.mp hempty)
  rcases bytes_push_relative path h with htext | htext <;> simp [isAbsolute, htext, hcs]

theorem isAbsolute_push {path : Path} (hpath : path.bytes ≠ .empty) {name : Bytes}
    (h : IsName name) : (path.push ⟨name⟩).isAbsolute = path.isAbsolute :=
  isAbsolute_push_relative hpath (isAbsolute_name h)

theorem size_le_push (path : Path) {name : Bytes} (h : IsName name) :
    path.bytes.size ≤ (path.push ⟨name⟩).bytes.size := by
  rcases bytes_push path h with htext | htext
  · rw [htext, Bytes.size_append]
    exact Nat.le_add_right ..
  · rw [htext, Bytes.size_append, Bytes.size_append, Nat.add_assoc]
    exact Nat.le_add_right ..

theorem bytes_push_ne (path : Path) {name : Bytes} (h : IsName name) :
    (path.push ⟨name⟩).bytes ≠ .empty := by
  rcases bytes_push path h with htext | htext <;> simp [htext, h.nonempty]

end Path

/-! ## Names behind a path -/

namespace FileSystem

theorem below_cons (directory : Path) (name : Bytes) (rest : Location) :
    below directory (name :: rest) = below (directory.push ⟨name⟩) rest := rfl

section
variable {names : Location} (hnames : ∀ name ∈ names, IsName name)
include hnames

theorem components_below (directory : Path) :
    (below directory names).components = directory.components ++ names.map .normal := by
  induction names generalizing directory with
  | nil => simp [below]
  | cons name rest ih =>
    obtain ⟨hname, hrest⟩ := List.forall_mem_cons.mp hnames
    rw [below_cons, ih hrest, Path.components_push directory hname]
    simp

theorem size_below_dropLast (directory : Path) :
    (below directory names.dropLast).bytes.size ≤
      (below directory names).bytes.size := by
  rcases List.eq_nil_or_concat names with rfl | ⟨before, last, rfl⟩
  · exact Nat.le_refl _
  · rw [List.concat_eq_append] at hnames ⊢
    rw [List.dropLast_concat, below, below, List.foldl_append]
    exact Path.size_le_push _ (hnames last (by simp))

variable {directory : Path} (hdirectory : directory.bytes ≠ .empty)
include hdirectory

theorem bytes_below_ne : (below directory names).bytes ≠ .empty := by
  induction names generalizing directory with
  | nil => exact hdirectory
  | cons name rest ih =>
    obtain ⟨hname, hrest⟩ := List.forall_mem_cons.mp hnames
    exact ih hrest (Path.bytes_push_ne directory hname)

theorem isAbsolute_below : (below directory names).isAbsolute = directory.isAbsolute := by
  induction names generalizing directory with
  | nil => rfl
  | cons name rest ih =>
    obtain ⟨hname, hrest⟩ := List.forall_mem_cons.mp hnames
    rw [below_cons, ih hrest (Path.bytes_push_ne directory hname),
      Path.isAbsolute_push hdirectory hname]

theorem names_below : (below directory names).names = directory.names ++ names := by
  induction names generalizing directory with
  | nil => simp [below]
  | cons name rest ih =>
    obtain ⟨hname, hrest⟩ := List.forall_mem_cons.mp hnames
    rw [below_cons, ih hrest (Path.bytes_push_ne directory hname), Path.names_push hdirectory hname]
    simp

/-- A slash at the end of the directory is no step of its own any more. -/
theorem steps_below (hsome : names ≠ []) :
    (below directory names).steps = directory.names ++ names := by
  have hslash : (below directory names).endsInSlash = false := by
    obtain ⟨before, last, rfl⟩ := List.eq_nil_or_concat names |>.resolve_left hsome
    rw [List.concat_eq_append] at hnames ⊢
    rw [below, List.foldl_append]
    exact Path.endsInSlash_push _ (hnames last (by simp))
  rw [Path.steps, hslash]
  exact names_below hnames hdirectory

/-- Each name is as long as it is and its slash. -/
theorem size_below (hslash : directory.endsInSlash = false) :
    (below directory names).bytes.size =
      names.foldl (fun length name => length + name.size + 1)
        directory.bytes.size := by
  induction names generalizing directory with
  | nil => rfl
  | cons name rest ih =>
    obtain ⟨hname, hrest⟩ := List.forall_mem_cons.mp hnames
    rw [below_cons, ih hrest (Path.bytes_push_ne directory hname)
      (Path.endsInSlash_push directory hname), Path.bytes_push_behind hdirectory hslash hname,
      Bytes.size_append, Bytes.size_append, List.foldl_cons]
    congr 1
    have hone : ("/" : Bytes).size = 1 := rfl
    omega

end

end FileSystem
end CallSift
