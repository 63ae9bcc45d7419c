import MiniSync.Kernel

/-!
# What one call can do

For each call, everything it can return and change, faults included.
-/

namespace MiniSync

/-- Calls that change nothing. -/
def Call.Quiet {Fd : Type} : Call Fd → Prop
  | .openFile _ how => how = .readOnly
  | .pwrite _ _ _ => False
  | .mkdir _ => False
  | .rename _ _ => False
  | .unlink _ => False
  | .recv _ => False
  | .send _ => False
  | _ => True

/-- Calls that leave the tree alone. -/
def Call.KeepsTree {Fd : Type} : Call Fd → Prop
  | .openFile _ how => how = .readOnly
  | .pwrite _ _ _ => False
  | .mkdir _ => False
  | .rename _ _ => False
  | .unlink _ => False
  | _ => True

/-- Calls that leave the connection alone. -/
def Call.KeepsConn {Fd : Type} : Call Fd → Prop
  | .recv _ => False
  | .send _ => False
  | _ => True

section Posix

variable {cwd : TreePath} {tree tree' : Tree} {path src dst : Bytes}

theorem posixOpenRead_eq_ok {fd : TreePath} (h : posixOpenRead cwd tree path = .ok fd) :
    fd = resolve cwd path := by
  unfold posixOpenRead at h
  by_cases hpath : path = []
  · rw [if_pos hpath] at h
    cases h
  rw [if_neg hpath] at h
  split at h
  · cases h
  · exact (Except.ok.inj h).symm
  · split_ifs at h
    exact (Except.ok.inj h).symm

/-- Opening for writing leaves a file: what was there, or nothing. -/
theorem posixOpenWrite_cases (cwd : TreePath) (tree : Tree) (path : Bytes) (trunc : Bool) :
    (∃ e, posixOpenWrite cwd tree path trunc = (.error e, tree)) ∨
      (resolve cwd path ≠ [] ∧ tree.lookup (resolve cwd path) ≠ some .dir ∧
        posixOpenWrite cwd tree path trunc = (.ok (resolve cwd path),
          tree.put (resolve cwd path)
            (.file (if trunc then [] else (tree.content (resolve cwd path)).getD [])))) := by
  unfold posixOpenWrite
  by_cases hpath : path = []
  · rw [if_pos hpath]
    exact Or.inl ⟨_, rfl⟩
  rw [if_neg hpath]
  have hroot (h : tree.lookup (resolve cwd path) ≠ some .dir) : resolve cwd path ≠ [] := by
    intro hnil
    rw [hnil] at h
    exact h rfl
  cases hlook : tree.lookup (resolve cwd path) with
  | none =>
      have hne : tree.lookup (resolve cwd path) ≠ some .dir := by rw [hlook]; simp
      have hcontent : tree.content (resolve cwd path) = none := by
        unfold FileTree.content
        rw [hlook]
      by_cases hask : asksForDir path = true
      · exact Or.inl ⟨.isdir, by simp [hask]⟩
      by_cases hparent : tree.parentIsDir (resolve cwd path)
      · exact Or.inr ⟨hroot hne, by simp, by simp [hask, hparent, hcontent]⟩
      · exact Or.inl ⟨_, by simp [hask, hparent]; rfl⟩
  | some node =>
      cases node with
      | dir => exact Or.inl ⟨.isdir, by simp⟩
      | file data =>
          have hne : tree.lookup (resolve cwd path) ≠ some .dir := by rw [hlook]; simp
          have hcontent := FileTree.content_eq_some.mpr hlook
          by_cases hask : asksForDir path = true
          · exact Or.inl ⟨.notdir, by simp [hask]⟩
          · exact Or.inr ⟨hroot hne, by simp, by simp [hask, hcontent]⟩

theorem posixRead_cases (tree : Tree) (fd : TreePath) (pos count : Nat) :
    (∃ e, posixRead tree fd pos count = .error e) ∨
      ∃ data, tree.content fd = some data ∧
        posixRead tree fd pos count = .ok ((data.drop pos).take count) := by
  unfold posixRead
  cases hlook : tree.lookup fd with
  | none => exact Or.inl ⟨_, rfl⟩
  | some node =>
      cases node with
      | dir => exact Or.inl ⟨_, rfl⟩
      | file data => exact Or.inr ⟨data, FileTree.content_eq_some.mpr hlook, rfl⟩

theorem posixWrite_cases (tree : Tree) (fd : TreePath) (buf : Bytes) (pos : Int) :
    (∃ e, posixWrite tree fd buf pos = (.error e, tree)) ∨
      ∃ data, 0 ≤ pos ∧ tree.content fd = some data ∧
        posixWrite tree fd buf pos =
          (.ok buf.length, tree.put fd (.file (ByteString.splice 0 data pos.toNat buf))) := by
  unfold posixWrite
  by_cases hpos : pos < 0
  · rw [if_pos hpos]
    exact Or.inl ⟨_, rfl⟩
  rw [if_neg hpos]
  cases hlook : tree.lookup fd with
  | none => exact Or.inl ⟨_, rfl⟩
  | some node =>
      cases node with
      | dir => exact Or.inl ⟨_, rfl⟩
      | file data =>
          exact Or.inr ⟨data, by omega, FileTree.content_eq_some.mpr hlook, rfl⟩

theorem posixMkdir_cases (cwd : TreePath) (tree : Tree) (path : Bytes) :
    (∃ e, posixMkdir cwd tree path = (.error e, tree)) ∨
      ∃ tree', posixMkdir cwd tree path = (.ok (), tree') ∧
        tree.mkdir (resolve cwd path) = .ok tree' := by
  unfold posixMkdir
  split_ifs
  · exact Or.inl ⟨_, rfl⟩
  · left
    split
    · exact ⟨_, rfl⟩
    · exact ⟨_, rfl⟩
  · split
    · rename_i tree' h
      exact Or.inr ⟨tree', rfl, h⟩
    · exact Or.inl ⟨_, rfl⟩

theorem posixRename_cases (cwd : TreePath) (tree : Tree) (src dst : Bytes) :
    (∃ e, posixRename cwd tree src dst = (.error e, tree)) ∨
      ∃ tree', posixRename cwd tree src dst = (.ok (), tree') ∧
        tree.rename (resolve cwd src) (resolve cwd dst)
          (asksForDir src || asksForDir dst) = .ok tree' := by
  unfold posixRename
  split_ifs
  · exact Or.inl ⟨_, rfl⟩
  · exact Or.inl ⟨_, rfl⟩
  · split
    · rename_i tree' h
      exact Or.inr ⟨tree', rfl, h⟩
    · exact Or.inl ⟨_, rfl⟩

theorem posixUnlink_cases (cwd : TreePath) (tree : Tree) (path : Bytes) :
    (∃ e, posixUnlink cwd tree path = (.error e, tree)) ∨
      ∃ tree', posixUnlink cwd tree path = (.ok (), tree') ∧
        tree.unlink (resolve cwd path) = .ok tree' := by
  unfold posixUnlink
  split_ifs
  · exact Or.inl ⟨_, rfl⟩
  · exact Or.inl ⟨_, rfl⟩
  · split
    · rename_i tree' h
      exact Or.inr ⟨tree', rfl, h⟩
    · exact Or.inl ⟨_, rfl⟩

end Posix

/-! ## With faults -/

section Faults

variable {cwd : TreePath} {mayFail : Call TreePath → Errno → Prop} {w w' : World}

theorem Kernel.keepsTree {c : Call TreePath} {r : Resp c} (h : Kernel cwd mayFail c w r w')
    (hc : c.KeepsTree) : w'.tree = w.tree := by
  rcases h with ⟨now, h⟩ | h
  · cases c with
    | openFile path how =>
        cases hc
        cases h
        rfl
    | pwrite fd buf pos => cases hc
    | mkdir path => cases hc
    | rename src dst => cases hc
    | unlink path => cases hc
    | _ =>
        cases h
        rfl
  · cases c with
    | openFile path how =>
        obtain ⟨e, -, -, rfl⟩ := h
        rfl
    | pwrite fd buf pos => cases hc
    | mkdir path => cases hc
    | rename src dst => cases hc
    | unlink path => cases hc
    | recv count =>
        rcases h with ⟨e, -, -, rfl⟩ | ⟨n, -, -, -, h, -⟩
        · rfl
        · exact h
    | send buf =>
        rcases h with ⟨e, -, -, rfl⟩ | ⟨n, -, -, h, -⟩
        · rfl
        · exact h
    | read fd pos count => rw [h.1]
    | lseek fd pos =>
        obtain ⟨e, -, -, rfl⟩ := h
        rfl
    | fsync fd =>
        obtain ⟨e, -, -, rfl⟩ := h
        rfl
    | stat path =>
        obtain ⟨e, -, -, rfl⟩ := h
        rfl
    | access path => rw [h.2.2]
    | chmod path mode => rw [h.2.2]
    | utime path mtime => rw [h.2.2]
    | readLock fd => rw [h.2.2]
    | malloc size => rw [h.2.2]
    | connect => rw [h.2.2]
    | _ => cases h

theorem Kernel.keepsConn {c : Call TreePath} {r : Resp c} (h : Kernel cwd mayFail c w r w')
    (hc : c.KeepsConn) : w'.conn = w.conn := by
  rcases h with ⟨now, h⟩ | h
  · cases c with
    | recv count => cases hc
    | send buf => cases hc
    | _ =>
        cases h
        rfl
  · cases c with
    | recv count => cases hc
    | send buf => cases hc
    | openFile path how =>
        obtain ⟨e, -, -, rfl⟩ := h
        rfl
    | pwrite fd buf pos =>
        rcases h with ⟨e, -, -, rfl⟩ | ⟨n, -, -, h⟩
        · rfl
        · exact h
    | read fd pos count => rw [h.1]
    | lseek fd pos =>
        obtain ⟨e, -, -, rfl⟩ := h
        rfl
    | fsync fd =>
        obtain ⟨e, -, -, rfl⟩ := h
        rfl
    | mkdir path =>
        obtain ⟨e, -, -, rfl⟩ := h
        rfl
    | rename src dst =>
        obtain ⟨e, -, -, rfl⟩ := h
        rfl
    | unlink path =>
        obtain ⟨e, -, -, rfl⟩ := h
        rfl
    | stat path =>
        obtain ⟨e, -, -, rfl⟩ := h
        rfl
    | access path => rw [h.2.2]
    | chmod path mode => rw [h.2.2]
    | utime path mtime => rw [h.2.2]
    | readLock fd => rw [h.2.2]
    | malloc size => rw [h.2.2]
    | connect => rw [h.2.2]
    | _ => cases h

theorem Kernel.openRead {path : Bytes} {r : Resp (.openFile path .readOnly)}
    (h : Kernel cwd mayFail (.openFile path .readOnly) w r w') :
    w' = w ∧ ∀ fd, r = .ok fd → fd = resolve cwd path := by
  rcases h with ⟨now, h⟩ | ⟨e, -, rfl, rfl⟩
  · cases h
    exact ⟨rfl, fun fd hfd => posixOpenRead_eq_ok hfd⟩
  · exact ⟨rfl, fun fd hfd => by cases hfd⟩

/-- What opening `path` for writing can do; `start` is what the file then holds. -/
def OpenedFor (cwd : TreePath) (path start : Bytes) (w : World) (r : Except Errno TreePath)
    (w' : World) : Prop :=
  ((∃ e, r = .error e) ∧ w' = w) ∨
    (r = .ok (resolve cwd path) ∧ resolve cwd path ≠ [] ∧
      w.tree.lookup (resolve cwd path) ≠ some .dir ∧
      w'.tree = w.tree.put (resolve cwd path) (.file start) ∧ w'.conn = w.conn)

theorem Kernel.openTrunc {path : Bytes} {mode : UInt32}
    {r : Resp (.openFile path (.writeCreateTrunc mode))}
    (h : Kernel cwd mayFail (.openFile path (.writeCreateTrunc mode)) w r w') :
    OpenedFor cwd path [] w r w' := by
  rcases h with ⟨now, h⟩ | ⟨e, -, rfl, rfl⟩
  · cases h
    rcases posixOpenWrite_cases cwd w.tree path true with ⟨e, he⟩ | ⟨hne, hdir, hok⟩
    · left
      simp only [posixOpen, he]
      exact ⟨⟨e, rfl⟩, trivial⟩
    · right
      simp only [posixOpen, hok, if_true]
      exact ⟨trivial, hne, hdir, trivial, trivial⟩
  · exact Or.inl ⟨⟨e, rfl⟩, rfl⟩

theorem Kernel.openCreate {path : Bytes} {mode : UInt32}
    {r : Resp (.openFile path (.writeCreate mode))}
    (h : Kernel cwd mayFail (.openFile path (.writeCreate mode)) w r w') :
    OpenedFor cwd path ((w.tree.content (resolve cwd path)).getD []) w r w' := by
  rcases h with ⟨now, h⟩ | ⟨e, -, rfl, rfl⟩
  · cases h
    rcases posixOpenWrite_cases cwd w.tree path false with ⟨e, he⟩ | ⟨hne, hdir, hok⟩
    · left
      simp only [posixOpen, he]
      exact ⟨⟨e, rfl⟩, trivial⟩
    · right
      simp only [posixOpen, hok, Bool.false_eq_true, if_false]
      exact ⟨trivial, hne, hdir, trivial, trivial⟩
  · exact Or.inl ⟨⟨e, rfl⟩, rfl⟩

/-- A read returns an error, or all that was asked for and is there, or a shorter
nonempty part of it. -/
theorem Kernel.readCases {fd : TreePath} {pos count : Nat} {r : Resp (.read fd pos count)}
    (h : Kernel cwd mayFail (.read fd pos count) w r w') :
    w' = w ∧ ((∃ e, r = .error e) ∨ ∃ data n, w.tree.content fd = some data ∧
      (n = count ∨ 0 < n) ∧ r = .ok ((data.drop pos).take n)) := by
  rcases h with ⟨now, h⟩ | ⟨rfl, h⟩
  · cases h
    refine ⟨rfl, ?_⟩
    rcases posixRead_cases w.tree fd pos count with ⟨e, he⟩ | ⟨data, hdata, hok⟩
    · exact Or.inl ⟨e, he⟩
    · exact Or.inr ⟨data, count, hdata, Or.inl rfl, hok⟩
  · refine ⟨rfl, ?_⟩
    rcases h with ⟨e, -, rfl⟩ | ⟨n, got, hn, -, hread, rfl⟩
    · exact Or.inl ⟨e, rfl⟩
    · rcases posixRead_cases w'.tree fd pos n with ⟨e, he⟩ | ⟨data, hdata, hok⟩
      · rw [he] at hread
        cases hread
      · rw [hok] at hread
        exact Or.inr ⟨data, n, hdata, Or.inr hn, by rw [Except.ok.inj hread]⟩

theorem Kernel.pwriteCases {fd : TreePath} {buf : Bytes} {pos : Int}
    {r : Resp (.pwrite fd buf pos)} (h : Kernel cwd mayFail (.pwrite fd buf pos) w r w') :
    ((∃ e, r = .error e) ∧ w' = w) ∨ ∃ data n, 0 ≤ pos ∧ n ≤ buf.length ∧ r = .ok n ∧
      w.tree.content fd = some data ∧ w'.conn = w.conn ∧
      w'.tree = w.tree.put fd (.file (ByteString.splice 0 data pos.toNat (buf.take n))) := by
  have hcases (n : Nat) (hn : n ≤ buf.length) {r : Except Errno Nat} {tree' : Tree}
      (h : posixWrite w.tree fd (buf.take n) pos = (r, tree')) :
      ((∃ e, r = .error e) ∧ tree' = w.tree) ∨ ∃ data, 0 ≤ pos ∧ r = .ok n ∧
        w.tree.content fd = some data ∧
        tree' = w.tree.put fd (.file (ByteString.splice 0 data pos.toNat (buf.take n))) := by
    rcases posixWrite_cases w.tree fd (buf.take n) pos with ⟨e, he⟩ | ⟨data, hpos, hdata, hok⟩
    · rw [he] at h
      cases h
      exact Or.inl ⟨⟨e, rfl⟩, rfl⟩
    · rw [hok] at h
      cases h
      refine Or.inr ⟨data, hpos, ?_, hdata, rfl⟩
      rw [List.length_take, Nat.min_eq_left hn]
  have hfinish (n : Nat) (hn : n ≤ buf.length)
      (h : posixWrite w.tree fd (buf.take n) pos = (r, w'.tree)) (hconn : w'.conn = w.conn) :
      ((∃ e, r = .error e) ∧ w' = w) ∨ ∃ data n, 0 ≤ pos ∧ n ≤ buf.length ∧ r = .ok n ∧
        w.tree.content fd = some data ∧ w'.conn = w.conn ∧
        w'.tree = w.tree.put fd (.file (ByteString.splice 0 data pos.toNat (buf.take n))) := by
    rcases hcases n hn h with ⟨he, htree⟩ | ⟨data, hpos, hr, hdata, htree⟩
    · left
      cases w'
      cases htree
      cases hconn
      exact ⟨he, rfl⟩
    · exact Or.inr ⟨data, n, hpos, hn, hr, hdata, hconn, htree⟩
  rcases h with ⟨now, h⟩ | ⟨e, -, rfl, rfl⟩ | ⟨n, hn, h, hconn⟩
  · cases h
    exact hfinish buf.length le_rfl (by rw [List.take_length]; rfl) rfl
  · exact Or.inl ⟨⟨e, rfl⟩, rfl⟩
  · exact hfinish n hn.le h hconn

theorem Kernel.mkdirCases {path : Bytes} {r : Resp (.mkdir path)}
    (h : Kernel cwd mayFail (.mkdir path) w r w') :
    ((∃ e, r = .error e) ∧ w' = w) ∨
      (r = .ok () ∧ w'.conn = w.conn ∧ w.tree.mkdir (resolve cwd path) = .ok w'.tree) := by
  rcases h with ⟨now, h⟩ | ⟨e, -, rfl, rfl⟩
  · cases h
    rcases posixMkdir_cases cwd w.tree path with ⟨e, he⟩ | ⟨tree', hok, hmk⟩
    · simp only [he]
      exact Or.inl ⟨⟨e, rfl⟩, trivial⟩
    · simp only [hok]
      exact Or.inr ⟨rfl, trivial, hmk⟩
  · exact Or.inl ⟨⟨e, rfl⟩, rfl⟩

/-- POSIX never gives `EXDEV` here: it is a fault. -/
theorem posixRename_ne_xdev (cwd : TreePath) (tree : Tree) (src dst : Bytes) :
    (posixRename cwd tree src dst).1 ≠ .error .xdev := by
  unfold posixRename
  split_ifs
  · simp
  · simp
  · have hx : tree.rename (resolve cwd src) (resolve cwd dst)
        (asksForDir src || asksForDir dst) ≠ .error .xdev := FileTree.rename_ne_xdev
    split
    · simp
    · rename_i e he
      intro h
      rw [he, Except.error.inj h] at hx
      exact hx rfl

theorem Kernel.renameCases {src dst : Bytes} {r : Resp (.rename src dst)}
    (h : Kernel cwd mayFail (.rename src dst) w r w') :
    ((∃ e, r = .error e ∧ (e = .xdev → mayFail (.rename src dst) .xdev)) ∧ w' = w) ∨
      (r = .ok () ∧ w'.conn = w.conn ∧ w.tree.rename (resolve cwd src) (resolve cwd dst)
        (asksForDir src || asksForDir dst) = .ok w'.tree) := by
  rcases h with ⟨now, h⟩ | ⟨e, hmay, rfl, rfl⟩
  · cases h
    have hx := posixRename_ne_xdev cwd w.tree src dst
    rcases posixRename_cases cwd w.tree src dst with ⟨e, he⟩ | ⟨tree', hok, hmv⟩
    · simp only [he] at hx ⊢
      exact Or.inl ⟨⟨e, rfl, fun h => absurd (congrArg Except.error h) hx⟩, trivial⟩
    · simp only [hok]
      exact Or.inr ⟨rfl, trivial, hmv⟩
  · exact Or.inl ⟨⟨e, rfl, fun h => h ▸ hmay⟩, rfl⟩

theorem Kernel.unlinkCases {path : Bytes} {r : Resp (.unlink path)}
    (h : Kernel cwd mayFail (.unlink path) w r w') :
    ((∃ e, r = .error e) ∧ w' = w) ∨
      (r = .ok () ∧ w'.conn = w.conn ∧ w.tree.unlink (resolve cwd path) = .ok w'.tree) := by
  rcases h with ⟨now, h⟩ | ⟨e, -, rfl, rfl⟩
  · cases h
    rcases posixUnlink_cases cwd w.tree path with ⟨e, he⟩ | ⟨tree', hok, hmk⟩
    · simp only [he]
      exact Or.inl ⟨⟨e, rfl⟩, trivial⟩
    · simp only [hok]
      exact Or.inr ⟨rfl, trivial, hmk⟩
  · exact Or.inl ⟨⟨e, rfl⟩, rfl⟩

/-- A receive returns an error, or all that was asked for and is there, or a
shorter nonempty part of it. -/
theorem Kernel.recvCases {count : Nat} {r : Resp (.recv count)}
    (h : Kernel cwd mayFail (.recv count) w r w') :
    ((∃ e, r = .error e) ∧ w' = w) ∨ ∃ n, n ≤ count ∧ (n = count ∨ 0 < n) ∧
      r = .ok (w.conn.input.take n) ∧ w' = { w with conn := w.conn.take n } := by
  rcases h with ⟨now, h⟩ | ⟨e, -, rfl, rfl⟩ | ⟨n, hpos, hn, rfl, htree, hconn⟩
  · cases h
    exact Or.inr ⟨count, le_rfl, Or.inl rfl, rfl, rfl⟩
  · exact Or.inl ⟨⟨e, rfl⟩, rfl⟩
  · cases w'
    cases htree
    cases hconn
    exact Or.inr ⟨n, hn.le, Or.inr hpos, rfl, rfl⟩

theorem Kernel.sendCases {buf : Bytes} {r : Resp (.send buf)}
    (h : Kernel cwd mayFail (.send buf) w r w') :
    ((∃ e, r = .error e) ∧ w' = w) ∨ ∃ n, n ≤ buf.length ∧ r = .ok n ∧
      w' = { w with conn := w.conn.push (buf.take n) } := by
  rcases h with ⟨now, h⟩ | ⟨e, -, rfl, rfl⟩ | ⟨n, hn, rfl, htree, hconn⟩
  · cases h
    exact Or.inr ⟨buf.length, le_rfl, rfl, by rw [List.take_length]⟩
  · exact Or.inl ⟨⟨e, rfl⟩, rfl⟩
  · cases w'
    cases htree
    cases hconn
    exact Or.inr ⟨n, hn.le, rfl, rfl⟩

theorem Kernel.quiet {c : Call TreePath} {r : Resp c} (h : Kernel cwd mayFail c w r w')
    (hc : c.Quiet) : w' = w := by
  have htree : w'.tree = w.tree := by
    apply h.keepsTree
    cases c <;> first | exact hc | trivial
  have hconn : w'.conn = w.conn := by
    apply h.keepsConn
    cases c <;> first | exact hc | trivial
  cases w'
  cases htree
  cases hconn
  rfl

end Faults

end MiniSync
