import Mathlib.Data.List.Basic
import Mathlib.Data.List.Infix

/-!
# Trees of files and directories

A finite map from component paths to nodes, with the directory operations of
POSIX on it.  The root always exists and is a directory.  There are no links: a
path names at most one node, and a node has exactly one path.
-/

namespace MiniSync

/-- The errors the operations below return. -/
inductive Errno
  | noent
  | notdir
  | isdir
  | exist
  | notempty
  | inval
  | busy
  | xdev
  | intr
  | again
  | acces
  | nametoolong
  | io
  deriving DecidableEq, Repr

inductive Node (φ : Type)
  | dir
  | file (content : φ)
  deriving DecidableEq, Repr

def Node.isDir {φ : Type} : Node φ → Bool
  | .dir => true
  | .file _ => false

structure FileTree (ν φ : Type) where
  entries : List (List ν × Node φ)
  deriving Repr

namespace FileTree

variable {ν φ : Type} [DecidableEq ν]

/-- The node that the first entry for `p` gives. -/
def find (entries : List (List ν × Node φ)) (p : List ν) : Option (Node φ) :=
  (entries.find? (fun e => e.1 = p)).map Prod.snd

def lookup (t : FileTree ν φ) (p : List ν) : Option (Node φ) :=
  if p = [] then some .dir else find t.entries p

/-- The content of the regular file at `p`. -/
def content (t : FileTree ν φ) (p : List ν) : Option φ :=
  match t.lookup p with
  | some (.file c) => some c
  | _ => none

/-- `p` is a directory. -/
def IsDir (t : FileTree ν φ) (p : List ν) : Prop := t.lookup p = some .dir

def put (t : FileTree ν φ) (p : List ν) (n : Node φ) : FileTree ν φ :=
  ⟨(p, n) :: t.entries.filter (fun e => e.1 ≠ p)⟩

def erase (t : FileTree ν φ) (p : List ν) : FileTree ν φ :=
  ⟨t.entries.filter (fun e => e.1 ≠ p)⟩

/-- Something lies strictly below `p`. -/
def occupied (t : FileTree ν φ) (p : List ν) : Bool :=
  t.entries.any fun e => p.isPrefixOf e.1 && decide (e.1 ≠ p)

/-- Everything at or below `src` moves to `dst`; what was at or below `dst` goes. -/
def move (t : FileTree ν φ) (src dst : List ν) : FileTree ν φ :=
  ⟨(t.entries.filter fun e => !dst.isPrefixOf e.1).map fun e =>
    if src.isPrefixOf e.1 then (dst ++ e.1.drop src.length, e.2) else e⟩

/-! ## Lookup after an update -/

variable {t t' : FileTree ν φ} {p q src dst : List ν} {n : Node φ} {c : φ}

@[simp] theorem lookup_nil (t : FileTree ν φ) : t.lookup [] = some .dir := rfl

@[simp] theorem find_nil (p : List ν) : find ([] : List (List ν × Node φ)) p = none := rfl

theorem find_cons (e : List ν × Node φ) (es : List (List ν × Node φ)) (p : List ν) :
    find (e :: es) p = if e.1 = p then some e.2 else find es p := by
  unfold find
  by_cases h : e.1 = p
  · rw [List.find?_cons_of_pos (by simpa using h), if_pos h]
    rfl
  · rw [List.find?_cons_of_neg (by simpa using h), if_neg h]

theorem find_filter_ne (es : List (List ν × Node φ)) (p q : List ν) :
    find (es.filter fun e => e.1 ≠ p) q = if q = p then none else find es q := by
  induction es with
  | nil => simp
  | cons e es ih =>
      by_cases hep : e.1 = p
      · rw [List.filter_cons_of_neg (by simpa using hep), ih, find_cons]
        by_cases hqp : q = p
        · rw [if_pos hqp, if_pos hqp]
        · rw [if_neg hqp, if_neg hqp, if_neg (by rw [hep]; exact fun h => hqp h.symm)]
      · rw [List.filter_cons_of_pos (by simpa using hep), find_cons, find_cons, ih]
        by_cases heq : e.1 = q
        · rw [if_pos heq, if_pos heq, if_neg (by rw [← heq]; exact hep)]
        · rw [if_neg heq, if_neg heq]

theorem lookup_put (hp : p ≠ []) :
    (t.put p n).lookup q = if q = p then some n else t.lookup q := by
  unfold lookup put
  rw [find_cons, find_filter_ne]
  by_cases hqp : q = p
  · subst hqp
    simp only [if_neg hp, if_true]
  · have hpq : ¬ p = q := fun h => hqp h.symm
    simp only [if_neg hqp, if_neg hpq]

theorem lookup_erase (hp : p ≠ []) :
    (t.erase p).lookup q = if q = p then none else t.lookup q := by
  unfold lookup erase
  rw [find_filter_ne]
  by_cases hqp : q = p
  · subst hqp
    simp only [if_neg hp, if_true]
  · simp only [if_neg hqp]

theorem find_move (es : List (List ν × Node φ)) (hsd : ¬ src <+: dst) (hds : ¬ dst <+: src) :
    find ((es.filter fun e => !dst.isPrefixOf e.1).map fun e =>
        if src.isPrefixOf e.1 then (dst ++ e.1.drop src.length, e.2) else e) q =
      if dst <+: q then find es (src ++ q.drop dst.length)
      else if src <+: q then none else find es q := by
  induction es with
  | nil => simp
  | cons e es ih =>
      obtain ⟨k, n⟩ := e
      by_cases hdk : dst <+: k
      · rw [List.filter_cons_of_neg (by simpa using hdk), ih, find_cons, find_cons]
        have hk : k ≠ src ++ q.drop dst.length := by
          rintro rfl
          rcases List.prefix_or_prefix_of_prefix hdk (List.prefix_append src _) with h | h
          · exact hds h
          · exact hsd h
        rw [if_neg hk]
        split_ifs with hdq _ hkq
        · rfl
        · rfl
        · exact absurd (hkq ▸ hdk) hdq
        · rfl
      · have hpre : dst.isPrefixOf k = false := Bool.eq_false_iff.mpr (by simpa using hdk)
        rw [List.filter_cons_of_pos (by simp only [hpre, Bool.not_false]), List.map_cons,
          find_cons, ih, find_cons, find_cons]
        clear hpre
        by_cases hsk : src <+: k
        · obtain ⟨r, rfl⟩ := hsk
          have hpre : src.isPrefixOf (src ++ r) = true := by simp
          simp only [hpre, if_true, List.drop_left]
          by_cases hdq : dst <+: q
          · obtain ⟨r', rfl⟩ := hdq
            simp [List.append_cancel_left_eq]
          · have hne : ¬ dst ++ r = q := fun h => hdq (h ▸ List.prefix_append dst r)
            rw [if_neg hne, if_neg hdq, if_neg hdq]
            split_ifs with hsq hkq
            · rfl
            · exact absurd (hkq ▸ List.prefix_append src r) hsq
            · rfl
        · have hpre : src.isPrefixOf k = false :=
            Bool.eq_false_iff.mpr (by simpa using hsk)
          simp only [hpre, Bool.false_eq_true, if_false]
          by_cases hkq : k = q
          · subst hkq
            rw [if_pos rfl, if_neg hdk, if_neg hsk, if_pos rfl]
          · rw [if_neg hkq]
            split_ifs with hdq hks hsq
            · exact absurd (hks ▸ List.prefix_append src _) hsk
            · rfl
            · rfl
            · rfl

theorem lookup_move (hsd : ¬ src <+: dst) (hds : ¬ dst <+: src) :
    (t.move src dst).lookup q =
      if dst <+: q then t.lookup (src ++ q.drop dst.length)
      else if src <+: q then none else t.lookup q := by
  have hsrc : src ≠ [] := fun h => hsd (h ▸ List.nil_prefix)
  have hdst : dst ≠ [] := fun h => hds (h ▸ List.nil_prefix)
  unfold lookup move
  rw [find_move t.entries hsd hds]
  by_cases hq : q = []
  · subst hq
    simp [hsrc, hdst]
  · have hback : ¬ src ++ q.drop dst.length = [] := by simp [hsrc]
    simp only [if_neg hq, if_neg hback]

theorem content_eq_some : t.content p = some c ↔ t.lookup p = some (.file c) := by
  unfold content
  split
  · rename_i d h
    rw [h]
    simp
  · rename_i hno
    constructor
    · intro h
      cases h
    · intro h
      exact absurd h (hno c)

theorem content_congr (h : t'.lookup p = t.lookup p) : t'.content p = t.content p := by
  unfold content
  rw [h]

/-- A move takes all files along. -/
theorem content_move (hsd : ¬ src <+: dst) (hds : ¬ dst <+: src) (r : List ν) :
    (t.move src dst).content (dst ++ r) = t.content (src ++ r) := by
  unfold content
  rw [lookup_move hsd hds, if_pos (List.prefix_append dst r), List.drop_left]

/-- What lies apart from both ends of a move stays. -/
theorem content_move_apart (hsd : ¬ src <+: dst) (hds : ¬ dst <+: src) (hq : ¬ src <+: q)
    (hq' : ¬ dst <+: q) : (t.move src dst).content q = t.content q := by
  apply content_congr
  rw [lookup_move hsd hds, if_neg hq', if_neg hq]

/-! ## Directory operations -/

/-- The directory that holds `p` exists. -/
def parentIsDir (t : FileTree ν φ) (p : List ν) : Prop := t.lookup p.dropLast = some .dir

instance [DecidableEq φ] (t : FileTree ν φ) (p : List ν) : Decidable (t.parentIsDir p) := by
  unfold parentIsDir
  infer_instance

/-- The error for a missing or unsuitable parent. -/
def parentErrno (t : FileTree ν φ) (p : List ν) : Errno :=
  match t.lookup p.dropLast with
  | none => .noent
  | _ => .notdir

/-- `mkdir` of a path that names no `.` or `..`. -/
def mkdir [DecidableEq φ] (t : FileTree ν φ) (p : List ν) : Except Errno (FileTree ν φ) :=
  match t.lookup p with
  | some _ => .error .exist
  | none => if t.parentIsDir p then .ok (t.put p .dir) else .error (t.parentErrno p)

/-- The end of `rename`: `dst` makes way for a node of the same kind. -/
def renameOnto (t : FileTree ν φ) (isDir : Bool) (src dst : List ν) [DecidableEq φ] :
    Except Errno (FileTree ν φ) :=
  match t.lookup dst with
  | none => if t.parentIsDir dst then .ok (t.move src dst) else .error (t.parentErrno dst)
  | some (.file _) => if isDir then .error .notdir else .ok (t.move src dst)
  | some .dir =>
      if isDir = false then .error .isdir
      else if t.occupied dst then .error .notempty
      else .ok (t.move src dst)

/-- `rename` of `src` to `dst`; `dirOnly` where the spelling of either path asks
for a directory. -/
def rename [DecidableEq φ] (t : FileTree ν φ) (src dst : List ν) (dirOnly : Bool) :
    Except Errno (FileTree ν φ) :=
  match t.lookup src with
  | none => .error .noent
  | some node =>
      let isDir := node.isDir
      if dirOnly ∧ isDir = false then .error .notdir
      else if src = dst then .ok t
      else if src <+: dst then .error (if isDir then .inval else .notdir)
      else if dst <+: src then .error (if isDir then .notempty else .isdir)
      else t.renameOnto isDir src dst

/-- `unlink`. -/
def unlink (t : FileTree ν φ) (p : List ν) : Except Errno (FileTree ν φ) :=
  match t.lookup p with
  | none => .error .noent
  | some .dir => .error .isdir
  | some (.file _) => .ok (t.erase p)

theorem renameOnto_eq_ok [DecidableEq φ] {isDir : Bool}
    (h : t.renameOnto isDir src dst = .ok t') : t' = t.move src dst := by
  unfold renameOnto at h
  split at h
  · split_ifs at h
    exact (Except.ok.inj h).symm
  · split_ifs at h
    exact (Except.ok.inj h).symm
  · split_ifs at h
    exact (Except.ok.inj h).symm

/-- A successful `rename` changes nothing, or moves. -/
theorem rename_eq_ok [DecidableEq φ] {dirOnly : Bool}
    (h : t.rename src dst dirOnly = .ok t') :
    (src = dst ∧ t' = t) ∨ (¬ src <+: dst ∧ ¬ dst <+: src ∧ t' = t.move src dst) := by
  unfold rename at h
  split at h
  · cases h
  · rename_i node _
    dsimp only at h
    by_cases hnotdir : dirOnly = true ∧ node.isDir = false
    · rw [if_pos hnotdir] at h
      cases h
    by_cases heq : src = dst
    · rw [if_neg hnotdir, if_pos heq] at h
      exact Or.inl ⟨heq, (Except.ok.inj h).symm⟩
    by_cases hsd : src <+: dst
    · rw [if_neg hnotdir, if_neg heq, if_pos hsd] at h
      cases h
    by_cases hds : dst <+: src
    · rw [if_neg hnotdir, if_neg heq, if_neg hsd, if_pos hds] at h
      cases h
    rw [if_neg hnotdir, if_neg heq, if_neg hsd, if_neg hds] at h
    exact Or.inr ⟨hsd, hds, renameOnto_eq_ok h⟩

/-- `dst` has room for a node: nothing is there, or a file where a file comes, or an
empty directory where a directory comes. -/
def Room (t : FileTree ν φ) (isDir : Bool) (dst : List ν) : Prop :=
  match t.lookup dst with
  | none => True
  | some (.file _) => isDir = false
  | some .dir => isDir = true ∧ t.occupied dst = false

theorem lookup_ne_none_iff (hp : p ≠ []) : t.lookup p ≠ none ↔ ∃ e ∈ t.entries, e.1 = p := by
  unfold lookup find
  rw [if_neg hp, ne_eq, Option.map_eq_none_iff, List.find?_eq_none]
  simp

theorem occupied_iff : t.occupied p = true ↔ ∃ q, p <+: q ∧ q ≠ p ∧ t.lookup q ≠ none := by
  unfold occupied
  rw [List.any_eq_true]
  constructor
  · rintro ⟨e, he, hbelow⟩
    rw [Bool.and_eq_true, List.isPrefixOf_iff_prefix, decide_eq_true_eq] at hbelow
    have hroot : e.1 ≠ [] := by
      intro h
      rw [h, List.prefix_nil] at hbelow
      exact hbelow.2 hbelow.1.symm
    exact ⟨e.1, hbelow.1, hbelow.2, (lookup_ne_none_iff hroot).mpr ⟨e, he, rfl⟩⟩
  · rintro ⟨q, hpq, hne, hsome⟩
    have hroot : q ≠ [] := by
      rintro rfl
      exact hne (List.prefix_nil.mp hpq).symm
    obtain ⟨e, he, rfl⟩ := (lookup_ne_none_iff hroot).mp hsome
    refine ⟨e, he, ?_⟩
    rw [Bool.and_eq_true, List.isPrefixOf_iff_prefix, decide_eq_true_eq]
    exact ⟨hpq, hne⟩

theorem room_of_renameOnto [DecidableEq φ] {isDir : Bool}
    (h : t.renameOnto isDir src dst = .ok t') : t.Room isDir dst := by
  unfold renameOnto at h
  unfold Room
  split at h
  · trivial
  · split_ifs at h with hdir
    exact Bool.eq_false_iff.mpr hdir
  · split_ifs at h with hdir hocc
    exact ⟨eq_true_of_ne_false hdir, Bool.eq_false_iff.mpr hocc⟩

theorem renameOnto_of_room [DecidableEq φ] {isDir : Bool} (h : t.Room isDir dst)
    (hparent : t.parentIsDir dst) : t.renameOnto isDir src dst = .ok (t.move src dst) := by
  unfold Room at h
  unfold renameOnto
  split at h
  · exact if_pos hparent
  · rw [h]
    rfl
  · obtain ⟨rfl, hfree⟩ := h
    rw [hfree]
    rfl

theorem Room.congr {isDir : Bool} (h : t.Room isDir dst)
    (hsame : ∀ q, dst <+: q → t'.lookup q = t.lookup q) : t'.Room isDir dst := by
  have hocc : t'.occupied dst = t.occupied dst := by
    rw [Bool.eq_iff_iff, occupied_iff, occupied_iff]
    constructor
    · rintro ⟨q, hq, hne, hsome⟩
      exact ⟨q, hq, hne, hsame q hq ▸ hsome⟩
    · rintro ⟨q, hq, hne, hsome⟩
      exact ⟨q, hq, hne, (hsame q hq).symm ▸ hsome⟩
  unfold Room at h ⊢
  rw [hsame dst List.prefix_rfl, hocc]
  exact h

theorem parentErrno_ne_xdev (t : FileTree ν φ) (p : List ν) : t.parentErrno p ≠ .xdev := by
  unfold parentErrno
  split <;> simp

theorem parentErrno_ne_exist (t : FileTree ν φ) (p : List ν) : t.parentErrno p ≠ .exist := by
  unfold parentErrno
  split <;> simp

theorem renameOnto_ne_xdev [DecidableEq φ] {isDir : Bool} :
    t.renameOnto isDir src dst ≠ .error .xdev := by
  have hparent := parentErrno_ne_xdev t dst
  unfold renameOnto
  split
  · split_ifs <;> simp [hparent]
  · split_ifs <;> simp
  · split_ifs <;> simp

/-- What is renamed exists, and the destination has room for it. -/
theorem room_of_rename [DecidableEq φ] {dirOnly : Bool}
    (h : t.rename src dst dirOnly = .ok t') (hne : src ≠ dst) :
    ∃ node, t.lookup src = some node ∧ t.Room node.isDir dst := by
  unfold rename at h
  split at h
  · cases h
  · rename_i node hnode
    dsimp only at h
    rw [if_neg hne] at h
    split_ifs at h
    exact ⟨node, hnode, room_of_renameOnto h⟩

/-- Everything is on one file system. -/
theorem rename_ne_xdev [DecidableEq φ] {dirOnly : Bool} :
    t.rename src dst dirOnly ≠ .error .xdev := by
  unfold rename
  split
  · simp
  · rename_i node _
    dsimp only
    by_cases h1 : dirOnly = true ∧ node.isDir = false
    · rw [if_pos h1]
      simp
    rw [if_neg h1]
    by_cases h2 : src = dst
    · rw [if_pos h2]
      simp
    rw [if_neg h2]
    by_cases h3 : src <+: dst
    · rw [if_pos h3]
      split_ifs <;> simp
    rw [if_neg h3]
    by_cases h4 : dst <+: src
    · rw [if_pos h4]
      split_ifs <;> simp
    rw [if_neg h4]
    exact renameOnto_ne_xdev

/-! ## What an operation leaves alone -/

/-- Outside `X` nothing changes, except that directories may be made. -/
def Touches (X : List ν → Prop) (t t' : FileTree ν φ) : Prop :=
  ∀ q, ¬ X q → t'.lookup q = t.lookup q ∨ (t.lookup q = none ∧ t'.lookup q = some .dir)

namespace Touches

variable {X Y : List ν → Prop} {t'' : FileTree ν φ}

theorem refl (X : List ν → Prop) (t : FileTree ν φ) : Touches X t t :=
  fun _ _ => Or.inl rfl

theorem trans (h : Touches X t t') (h' : Touches X t' t'') : Touches X t t'' := by
  intro q hq
  rcases h q hq with h1 | ⟨h1, h2⟩
  · rw [← h1]
    exact h' q hq
  · rcases h' q hq with h3 | ⟨h3, -⟩
    · exact Or.inr ⟨h1, h3.trans h2⟩
    · rw [h2] at h3
      cases h3

theorem mono (h : Touches X t t') (hXY : ∀ q, X q → Y q) : Touches Y t t' :=
  fun q hq => h q fun hX => hq (hXY q hX)

/-- Files outside `X` stay as they are, and none appear. -/
theorem content (h : Touches X t t') (hp : ¬ X p) : t'.content p = t.content p := by
  rcases h p hp with h1 | ⟨h1, h2⟩
  · exact content_congr h1
  · unfold FileTree.content
    rw [h1, h2]

/-- What exists outside `X` stays. -/
theorem lookup_of_ne_none (h : Touches X t t') (hp : ¬ X p) (hne : t.lookup p ≠ none) :
    t'.lookup p = t.lookup p := by
  rcases h p hp with h1 | ⟨h1, -⟩
  · exact h1
  · exact absurd h1 hne

/-- Where only directories have been made, what has room had room before. -/
theorem room {isDir : Bool} (h : Touches (fun _ => False) t t') (hroom : t'.Room isDir dst) :
    t.Room isDir dst := by
  unfold Room at hroom ⊢
  cases hnode : t.lookup dst with
  | none => trivial
  | some node =>
      have hsame : t'.lookup dst = some node := by
        rw [h.lookup_of_ne_none not_false (by rw [hnode]; nofun), hnode]
      rw [hsame] at hroom
      cases node with
      | file c => exact hroom
      | dir =>
          refine ⟨hroom.1, Bool.eq_false_iff.mpr fun hocc => ?_⟩
          obtain ⟨q, hq, hne, hsome⟩ := occupied_iff.mp hocc
          have hocc' : t'.occupied dst = true := by
            refine occupied_iff.mpr ⟨q, hq, hne, ?_⟩
            rw [h.lookup_of_ne_none not_false hsome]
            exact hsome
          rw [hroom.2] at hocc'
          cases hocc'

theorem put (hp : p ≠ []) (hX : X p) : Touches X t (t.put p n) := by
  intro q hq
  have hqp : q ≠ p := by
    rintro rfl
    exact hq hX
  rw [lookup_put hp, if_neg hqp]
  exact Or.inl rfl

theorem put_dir (hp : p ≠ []) (hnone : t.lookup p = none) : Touches X t (t.put p .dir) := by
  intro q _
  rw [lookup_put hp]
  split_ifs with hqp
  · exact Or.inr ⟨hqp ▸ hnone, rfl⟩
  · exact Or.inl rfl

theorem erase (hp : p ≠ []) (hX : X p) : Touches X t (t.erase p) := by
  intro q hq
  have hqp : q ≠ p := by
    rintro rfl
    exact hq hX
  rw [lookup_erase hp, if_neg hqp]
  exact Or.inl rfl

theorem mkdir [DecidableEq φ] (h : t.mkdir p = .ok t') : Touches X t t' := by
  unfold FileTree.mkdir at h
  split at h
  · cases h
  · rename_i hnone
    split_ifs at h
    have hp : p ≠ [] := by
      rintro rfl
      cases hnone
    rw [← Except.ok.inj h]
    exact put_dir hp hnone

theorem unlink [DecidableEq φ] (hX : X p) (h : t.unlink p = .ok t') : Touches X t t' := by
  unfold FileTree.unlink at h
  split at h
  · cases h
  · cases h
  · rename_i c hfile
    have hp : p ≠ [] := by
      rintro rfl
      cases hfile
    rw [← Except.ok.inj h]
    exact erase hp hX

theorem rename [DecidableEq φ] {dirOnly : Bool} (hsrc : ∀ q, src <+: q → X q)
    (hdst : ∀ q, dst <+: q → X q) (h : t.rename src dst dirOnly = .ok t') : Touches X t t' := by
  rcases rename_eq_ok h with ⟨-, rfl⟩ | ⟨hsd, hds, rfl⟩
  · exact refl X t'
  · intro q hq
    rw [lookup_move hsd hds, if_neg (fun hd => hq (hdst q hd)), if_neg (fun hs => hq (hsrc q hs))]
    exact Or.inl rfl

end Touches

/-- What `unlink` removes is gone. -/
theorem lookup_unlink [DecidableEq φ] (h : t.unlink p = .ok t') : t'.lookup p = none := by
  unfold FileTree.unlink at h
  split at h
  · cases h
  · cases h
  · rename_i c hfile
    have hp : p ≠ [] := by
      rintro rfl
      cases hfile
    rw [← Except.ok.inj h, lookup_erase hp, if_pos rfl]

/-- After a successful `rename` the destination holds what the source held. -/
theorem lookup_rename_dst [DecidableEq φ] {dirOnly : Bool}
    (h : t.rename src dst dirOnly = .ok t') : t'.lookup dst = t.lookup src := by
  rcases rename_eq_ok h with ⟨rfl, rfl⟩ | ⟨hsd, hds, rfl⟩
  · rfl
  · rw [lookup_move hsd hds, if_pos List.prefix_rfl, List.drop_length, List.append_nil]

/-- After a `rename` to another path the source is gone. -/
theorem lookup_rename_src [DecidableEq φ] {dirOnly : Bool}
    (h : t.rename src dst dirOnly = .ok t') (hne : src ≠ dst) : t'.lookup src = none := by
  rcases rename_eq_ok h with ⟨heq, -⟩ | ⟨hsd, hds, rfl⟩
  · exact absurd heq hne
  · rw [lookup_move hsd hds, if_neg hds, if_pos List.prefix_rfl]

/-! ## Grounded trees -/

/-- Whatever exists stands in a directory. -/
def Grounded (t : FileTree ν φ) : Prop :=
  ∀ p, p ≠ [] → t.lookup p ≠ none → t.lookup p.dropLast = some .dir

/-- Every directory is still one. -/
def DirsStay (t t' : FileTree ν φ) : Prop := ∀ p, t.IsDir p → t'.IsDir p

/-- New directories are at nodes in `D` only. -/
def MakesIn (D : List ν → Prop) (t t' : FileTree ν φ) : Prop :=
  ∀ q, t'.IsDir q → t.IsDir q ∨ D q

theorem dropLast_ne_self {α : Type} {p : List α} (hp : p ≠ []) : p.dropLast ≠ p := by
  intro h
  have hlen := congrArg List.length h
  have hpos := List.length_pos_of_ne_nil hp
  rw [List.length_dropLast] at hlen
  omega

/-- It is enough that each entry does. -/
theorem grounded_of_entries (h : ∀ e ∈ t.entries, t.lookup e.1.dropLast = some .dir) :
    t.Grounded := by
  intro p hp hsome
  unfold lookup at hsome
  rw [if_neg hp] at hsome
  unfold find at hsome
  cases hfind : t.entries.find? (fun e => decide (e.1 = p)) with
  | none =>
      rw [hfind] at hsome
      exact absurd rfl hsome
  | some e =>
      have hmem := List.mem_of_find?_eq_some hfind
      have heq : e.1 = p := by simpa using List.find?_some hfind
      rw [← heq]
      exact h e hmem

namespace Grounded

/-- Below what is not a directory there is nothing. -/
theorem lookup_of_under (h : t.Grounded) (hp : t.lookup p ≠ some .dir) (hpq : p <+: q)
    (hne : q ≠ p) : t.lookup q = none := by
  obtain ⟨r, rfl⟩ := hpq
  -- induction on the names below `p`, from the last one on
  induction r using List.reverseRecOn with
  | nil => exact absurd (List.append_nil p) hne
  | append_singleton r name ih =>
      by_contra hsome
      have hparent := h _ (by simp) hsome
      rw [← List.append_assoc, List.dropLast_concat] at hparent
      by_cases hr : p ++ r = p
      · rw [hr] at hparent
        exact hp hparent
      · rw [ih hr] at hparent
        cases hparent

theorem put (h : t.Grounded) (hp : p ≠ []) (hparent : t.lookup p.dropLast = some .dir)
    (hn : t.lookup p = some .dir → n = .dir) : (t.put p n).Grounded := by
  intro q hq hsome
  rw [lookup_put hp] at hsome ⊢
  have hdir : t.lookup q.dropLast = some .dir := by
    by_cases hqp : q = p
    · rw [hqp]
      exact hparent
    · rw [if_neg hqp] at hsome
      exact h q hq hsome
  split_ifs with hlast
  · rw [hlast] at hdir
    rw [hn hdir]
  · exact hdir

/-- A file is put where there is no directory. -/
theorem put_file (h : t.Grounded) (hp : p ≠ []) (hparent : t.lookup p.dropLast = some .dir)
    (hdir : t.lookup p ≠ some .dir) : (t.put p (.file c)).Grounded :=
  h.put hp hparent fun h' => absurd h' hdir

theorem mkdir [DecidableEq φ] (h : t.Grounded) (hmk : t.mkdir p = .ok t') : t'.Grounded := by
  unfold FileTree.mkdir at hmk
  split at hmk
  · cases hmk
  · rename_i hnone
    split_ifs at hmk with hparent
    have hp : p ≠ [] := by
      rintro rfl
      cases hnone
    rw [← Except.ok.inj hmk]
    exact h.put hp hparent fun _ => rfl

theorem unlink [DecidableEq φ] (h : t.Grounded) (hun : t.unlink p = .ok t') : t'.Grounded := by
  unfold FileTree.unlink at hun
  split at hun
  · cases hun
  · cases hun
  · rename_i c hfile
    have hp : p ≠ [] := by
      rintro rfl
      cases hfile
    rw [← Except.ok.inj hun]
    intro q hq hsome
    rw [lookup_erase hp] at hsome ⊢
    split_ifs at hsome with hqp
    · exact absurd rfl hsome
    have hdir := h q hq hsome
    rw [if_neg]
    · exact hdir
    · intro hlast
      rw [hlast, hfile] at hdir
      cases hdir

theorem move (h : t.Grounded) (hsd : ¬ src <+: dst) (hds : ¬ dst <+: src)
    (hparent : t.lookup dst.dropLast = some .dir) : (t.move src dst).Grounded := by
  have hdst : dst ≠ [] := fun h => hds (h ▸ List.nil_prefix)
  intro q hq hsome
  rw [lookup_move hsd hds] at hsome ⊢
  by_cases hdq : dst <+: q
  · obtain ⟨r, rfl⟩ := hdq
    rw [if_pos (List.prefix_append dst r), List.drop_left] at hsome
    rcases List.eq_nil_or_concat r with rfl | ⟨r, name, rfl⟩
    · have hnd : ¬ dst <+: dst.dropLast :=
        fun hpre => dropLast_ne_self hdst ((List.dropLast_prefix dst).eq_of_length_le hpre.length_le)
      have hns : ¬ src <+: dst.dropLast := fun hpre => hsd (hpre.trans (List.dropLast_prefix dst))
      rw [List.append_nil, if_neg hnd, if_neg hns]
      exact hparent
    · rw [List.concat_eq_append, ← List.append_assoc] at hsome
      have hdir := h _ (by simp) hsome
      rw [List.dropLast_concat] at hdir
      rw [List.concat_eq_append, ← List.append_assoc, List.dropLast_concat,
        if_pos (List.prefix_append dst r), List.drop_left]
      exact hdir
  · rw [if_neg hdq] at hsome
    split_ifs at hsome with hsq
    · exact absurd rfl hsome
    have hnd : ¬ dst <+: q.dropLast := fun hpre => hdq (hpre.trans (List.dropLast_prefix q))
    have hns : ¬ src <+: q.dropLast := fun hpre => hsq (hpre.trans (List.dropLast_prefix q))
    rw [if_neg hnd, if_neg hns]
    exact h q hq hsome

theorem rename [DecidableEq φ] {dirOnly : Bool} (h : t.Grounded)
    (hren : t.rename src dst dirOnly = .ok t') : t'.Grounded := by
  have hren' := hren
  rcases rename_eq_ok hren with ⟨-, rfl⟩ | ⟨hsd, hds, rfl⟩
  · exact h
  · apply h.move hsd hds
    have hdst : dst ≠ [] := fun h => hds (h ▸ List.nil_prefix)
    by_cases hnone : t.lookup dst = none
    · unfold FileTree.rename at hren'
      split at hren'
      · cases hren'
      · rename_i node _
        have hne : src ≠ dst := fun heq => hsd (heq ▸ List.prefix_rfl)
        unfold renameOnto at hren'
        simp only [hne, hsd, hds, hnone, if_false] at hren'
        split_ifs at hren' with _ hparent
        exact hparent
    · exact h dst hdst hnone

/-- Nothing above a directory is a file. -/
theorem not_file_above (h : t.Grounded) (hq : t.lookup q = some .dir) (hpq : p <+: q)
    (hfile : t.lookup p = some (.file c)) : False := by
  have hnotDir : t.lookup p ≠ some .dir := by
    rw [hfile]
    nofun
  by_cases hne : q = p
  · exact hnotDir (hne ▸ hq)
  · rw [h.lookup_of_under hnotDir hpq hne] at hq
    cases hq

/-- Only a file makes way for what is renamed, and only for a file. -/
theorem file_makes_way {isDir : Bool} (h : t.Grounded) (hroom : t.Room isDir dst)
    (hq : t.content q = some c) (hdq : dst <+: q) : q = dst ∧ isDir = false := by
  have hlookup := content_eq_some.mp hq
  by_cases heq : q = dst
  · subst heq
    unfold Room at hroom
    rw [hlookup] at hroom
    exact ⟨rfl, hroom⟩
  · exfalso
    unfold Room at hroom
    split at hroom
    · rename_i hnone
      rw [h.lookup_of_under (by rw [hnone]; nofun) hdq heq] at hlookup
      cases hlookup
    · rename_i hfile
      rw [h.lookup_of_under (by rw [hfile]; nofun) hdq heq] at hlookup
      cases hlookup
    · have hocc := occupied_iff.mpr ⟨q, hdq, heq, by rw [hlookup]; nofun⟩
      rw [hroom.2] at hocc
      cases hocc

theorem parentIsDir_of_renameOnto [DecidableEq φ] {isDir : Bool} (hg : t.Grounded)
    (h : t.renameOnto isDir src dst = .ok t') : t.parentIsDir dst := by
  by_cases hroot : dst = []
  · rw [hroot]
    rfl
  unfold renameOnto at h
  split at h
  · split_ifs at h with hparent
    exact hparent
  · rename_i heq
    exact hg dst hroot (by rw [heq]; nofun)
  · rename_i heq
    exact hg dst hroot (by rw [heq]; nofun)

end Grounded

/-- A file does not take the place of a directory. -/
theorem not_dir_of_rename_file [DecidableEq φ] {dirOnly : Bool} (hfile : t.lookup src = some (.file c))
    (hsd : ¬ src <+: dst) (hds : ¬ dst <+: src) (h : t.rename src dst dirOnly = .ok t') :
    t.lookup dst ≠ some .dir := by
  intro hdir
  have hne : src ≠ dst := fun heq => hsd (heq ▸ List.prefix_rfl)
  unfold FileTree.rename renameOnto at h
  simp only [hfile, hne, hsd, hds, hdir, Node.isDir, if_false, if_true] at h
  split_ifs at h

/-- Moving a file changes nothing but the two nodes. -/
theorem Touches.rename_file [DecidableEq φ] {dirOnly : Bool} (hg : t.Grounded)
    (hsrc : t.content src = some c) (h : t.rename src dst dirOnly = .ok t') :
    Touches (fun q => q = src ∨ q = dst) t t' := by
  have hfile := content_eq_some.mp hsrc
  rcases rename_eq_ok h with ⟨-, rfl⟩ | ⟨hsd, hds, hmove⟩
  · exact refl _ t'
  have hbelow : ∀ r, r ≠ src → src <+: r → t.lookup r = none := fun r hne hr =>
    hg.lookup_of_under (by rw [hfile]; nofun) hr hne
  intro q hq
  rw [not_or] at hq
  left
  rw [hmove, lookup_move hsd hds]
  split_ifs with hdq hsq
  · rw [hg.lookup_of_under (not_dir_of_rename_file hfile hsd hds h) hdq hq.2]
    obtain ⟨r, rfl⟩ := hdq
    rw [List.drop_left, hbelow (src ++ r) _ (List.prefix_append src r)]
    intro heq
    rw [List.append_right_eq_self.mp heq, List.append_nil] at hq
    exact hq.2 rfl
  · exact (hbelow q hq.1 hsq).symm
  · rfl

/-- Moving a file leaves all others as they are. -/
theorem Grounded.content_rename_file [DecidableEq φ] {dirOnly : Bool} {q : List ν} {d : φ}
    (hg : t.Grounded) (hsrc : t.content src = some c) (h : t.rename src dst dirOnly = .ok t')
    (hqsrc : q ≠ src) (hqdst : q ≠ dst) (hq : t.content q = some d) : t'.content q = some d := by
  rw [(Touches.rename_file hg hsrc h).content (by rw [not_or]; exact ⟨hqsrc, hqdst⟩)]
  exact hq

/-- All files after one has moved: the one at the destination is replaced. -/
theorem Grounded.content_after_rename_file [DecidableEq φ] {dirOnly : Bool} (hg : t.Grounded)
    (hsrc : t.content src = some c) (h : t.rename src dst dirOnly = .ok t') (q : List ν) :
    t'.content q = if q = dst then some c else if q = src then none else t.content q := by
  have hdst : t'.content dst = some c := by
    rw [← hsrc]
    unfold content
    rw [lookup_rename_dst h]
  split_ifs with hqd hqs
  · rw [hqd, hdst]
  · unfold content
    rw [hqs, lookup_rename_src h fun heq => hqd (hqs.trans heq)]
  · exact (Touches.rename_file hg hsrc h).content (by rw [not_or]; exact ⟨hqs, hqd⟩)

/-- A file of the tree is one of its entries. -/
theorem mem_entries_of_content {q : List ν} (h : t.content q = some c) :
    (q, Node.file c) ∈ t.entries := by
  rw [content_eq_some] at h
  unfold lookup at h
  split_ifs at h with hq
  · cases h
  unfold find at h
  obtain ⟨e, hfind, he⟩ := Option.map_eq_some_iff.mp h
  have hpath : e.1 = q := by simpa using List.find?_some hfind
  rw [← hpath, ← he]
  exact List.mem_of_find?_eq_some hfind

namespace DirsStay

variable {t'' : FileTree ν φ}

theorem refl (t : FileTree ν φ) : DirsStay t t := fun _ h => h

theorem trans (h : DirsStay t t') (h' : DirsStay t' t'') : DirsStay t t'' :=
  fun p hp => h' p (h p hp)

theorem put (hp : p ≠ []) (hn : t.lookup p = some .dir → n = .dir) : DirsStay t (t.put p n) := by
  intro q hq
  unfold IsDir at hq ⊢
  rw [lookup_put hp]
  split_ifs with hqp
  · rw [hn (hqp ▸ hq)]
  · exact hq

theorem mkdir [DecidableEq φ] (h : t.mkdir p = .ok t') : DirsStay t t' := by
  unfold FileTree.mkdir at h
  split at h
  · cases h
  · rename_i hnone
    split_ifs at h
    have hp : p ≠ [] := by
      rintro rfl
      cases hnone
    rw [← Except.ok.inj h]
    exact put hp fun _ => rfl

theorem unlink [DecidableEq φ] (h : t.unlink p = .ok t') : DirsStay t t' := by
  unfold FileTree.unlink at h
  split at h
  · cases h
  · cases h
  · rename_i c hfile
    have hp : p ≠ [] := by
      rintro rfl
      cases hfile
    rw [← Except.ok.inj h]
    intro q hq
    unfold IsDir at hq ⊢
    rw [lookup_erase hp, if_neg]
    · exact hq
    · rintro rfl
      rw [hfile] at hq
      cases hq

/-- Moving a file moves no directory. -/
theorem rename_file [DecidableEq φ] {dirOnly : Bool} (hg : t.Grounded)
    (hsrc : t.content src = some c) (h : t.rename src dst dirOnly = .ok t') : DirsStay t t' := by
  have hfile := content_eq_some.mp hsrc
  rcases rename_eq_ok h with ⟨-, rfl⟩ | ⟨hsd, hds, hmove⟩
  · exact refl t'
  have hnotdir := not_dir_of_rename_file hfile hsd hds h
  subst hmove
  intro q hq
  have hq' : t.lookup q = some .dir := hq
  unfold IsDir
  have hnone : ∀ r, t.lookup r ≠ some .dir → ¬ r <+: q := by
    intro r hr hrq
    by_cases heq : q = r
    · exact hr (heq ▸ hq')
    · have hgone := hg.lookup_of_under hr hrq heq
      rw [hq'] at hgone
      cases hgone
  rw [lookup_move hsd hds, if_neg (hnone dst hnotdir),
    if_neg (hnone src (by rw [hfile]; nofun))]
  exact hq

end DirsStay

namespace MakesIn

variable {D X : List ν → Prop} {t'' : FileTree ν φ}

theorem refl (D : List ν → Prop) (t : FileTree ν φ) : MakesIn D t t := fun _ h => Or.inl h

theorem trans (h : MakesIn D t t') (h' : MakesIn D t' t'') : MakesIn D t t'' := by
  intro q hq
  rcases h' q hq with h1 | h1
  · exact h q h1
  · exact Or.inr h1

theorem put_file (hp : p ≠ []) : MakesIn D t (t.put p (.file c)) := by
  intro q hq
  unfold IsDir at hq ⊢
  rw [lookup_put hp] at hq
  split_ifs at hq with hqp
  · cases hq
  · exact Or.inl hq

theorem mkdir [DecidableEq φ] (hD : D p) (h : t.mkdir p = .ok t') : MakesIn D t t' := by
  unfold FileTree.mkdir at h
  split at h
  · cases h
  · rename_i hnone
    split_ifs at h
    have hp : p ≠ [] := by
      rintro rfl
      cases hnone
    rw [← Except.ok.inj h]
    intro q hq
    unfold IsDir at hq ⊢
    rw [lookup_put hp] at hq
    split_ifs at hq with hqp
    · exact Or.inr (hqp ▸ hD)
    · exact Or.inl hq

theorem unlink [DecidableEq φ] (h : t.unlink p = .ok t') : MakesIn D t t' := by
  unfold FileTree.unlink at h
  split at h
  · cases h
  · cases h
  · rename_i c hfile
    have hp : p ≠ [] := by
      rintro rfl
      cases hfile
    rw [← Except.ok.inj h]
    intro q hq
    unfold IsDir at hq ⊢
    rw [lookup_erase hp] at hq
    split_ifs at hq
    exact Or.inl hq

/-- What is outside `X` has stayed, or is a directory that has been made. -/
theorem lookup_cases (h : MakesIn D t t') (htouch : Touches X t t') (hp : ¬ X p) :
    t'.lookup p = t.lookup p ∨ (t.lookup p = none ∧ t'.lookup p = some .dir ∧ D p) := by
  rcases htouch p hp with h1 | ⟨h1, h2⟩
  · exact Or.inl h1
  · rcases h p h2 with hdir | hD
    · rw [IsDir, h1] at hdir
      cases hdir
    · exact Or.inr ⟨h1, h2, hD⟩

end MakesIn

end FileTree

end MiniSync
