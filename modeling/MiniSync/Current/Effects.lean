import MiniSync.History.BlockStream
import MiniSync.Lib.FileMap

/-!
# What uploads do to the files of `current`

The files of `current` as a map, and the exact change that each upload makes of it: a
temporary file comes or goes, or the file is replaced as a whole.
-/

namespace MiniSync

open Prog

/-! ## The files of `current` -/

/-- The files of `current`. -/
def currentFiles (cwd : TreePath) (root : Bytes) (tree : Tree) : FileMap Bytes Bytes :=
  FileMap.below (storeRoot cwd root ++ [currentName]) tree.content

/-- A change of the files of `current`. -/
inductive Effect
  | keep
  /-- The temporary file is written, or removed. -/
  | stage (tmp : TreePath) (data : Option Bytes)
  /-- The temporary file becomes the file. -/
  | put (tmp q : TreePath) (data : Bytes)
  | remove (q : TreePath)
  | move (p q : TreePath)

def Effect.apply : Effect → FileMap Bytes Bytes → FileMap Bytes Bytes
  | keep, m => m
  | stage tmp data, m => Function.update m tmp data
  | put tmp q data, m => Function.update (Function.update m tmp none) q (some data)
  | remove q, m => FileMap.remove q m
  | move p q, m => FileMap.move p q m

/-- The files of `current` change as `e` says. -/
def Acts (cwd : TreePath) (root : Bytes) (e : Effect) (tree tree' : Tree) : Prop :=
  currentFiles cwd root tree' = e.apply (currentFiles cwd root tree)

section Effects

variable {cwd : TreePath} {mayFail : Call TreePath → Errno → Prop} {root rel dst tmp : Bytes}
  {w w' : World} {fuel : Nat} {X : TreePath → Prop} {tree tree' : Tree}

theorem currentFiles_apply (q : TreePath) :
    currentFiles cwd root tree q = tree.content (currentNode cwd root q) := by
  unfold currentFiles FileMap.below currentNode
  rw [List.append_assoc, List.singleton_append]

theorem currentNode_eq (q : TreePath) :
    currentNode cwd root q = (storeRoot cwd root ++ [currentName]) ++ q := by
  rw [List.append_assoc, List.singleton_append]
  rfl

theorem currentNode_inj {p q : TreePath} (h : currentNode cwd root p = currentNode cwd root q) :
    p = q := (List.cons.inj (List.append_cancel_left h)).2

/-- What is done outside `current` leaves its files. -/
theorem acts_keep (h : tree.Touches X tree') (hX : ∀ q, ¬ X (currentNode cwd root q)) :
    Acts cwd root .keep tree tree' := by
  funext q
  rw [currentFiles_apply]
  exact (h.content (hX q)).trans (currentFiles_apply q).symm

theorem acts_of_content_eq (h : tree'.content = tree.content) : Acts cwd root .keep tree tree' := by
  unfold Acts currentFiles
  rw [h]
  rfl

/-! ## Uploads -/

/-- What an upload does to the tree: it writes to the temporary file, and replaces `dst`
where it comes to its end; `X` may change besides. -/
inductive Uploaded (cwd : TreePath) (dst tmp : Bytes) (X : TreePath → Prop) (tree : Tree) :
    Option Bytes → Tree → Prop
  | staged {tree' : Tree} (touches : tree.Touches (fun q => X q ∨ q = resolve cwd tmp) tree') :
      Uploaded cwd dst tmp X tree none tree'
  | replaced {tree' : Tree} {data : Bytes}
      (touches : tree.Touches (fun q => X q ∨ q = resolve cwd tmp ∨ q = resolve cwd dst) tree')
      (tmp_gone : tree'.content (resolve cwd tmp) = none)
      (content : tree'.content (resolve cwd dst) = some data) :
      Uploaded cwd dst tmp X tree (some data) tree'

namespace Uploaded

variable {r : Option Bytes} {tree'' : Tree}

theorem after (h : Uploaded cwd dst tmp X tree' r tree'') (hbefore : tree.Touches X tree') :
    Uploaded cwd dst tmp X tree r tree'' := by
  cases h with
  | staged touches => exact .staged ((hbefore.mono fun _ => Or.inl).trans touches)
  | replaced touches tmp_gone content =>
      exact .replaced ((hbefore.mono fun _ => Or.inl).trans touches) tmp_gone content

theorem afterTmp (h : Uploaded cwd dst tmp X tree' r tree'')
    (hbefore : tree.Touches (fun q => q = resolve cwd tmp) tree') :
    Uploaded cwd dst tmp X tree r tree'' := by
  cases h with
  | staged touches => exact .staged ((hbefore.mono fun _ => Or.inr).trans touches)
  | replaced touches tmp_gone content =>
      exact .replaced ((hbefore.mono fun _ h => Or.inr (Or.inl h)).trans touches) tmp_gone content

theorem before (h : Uploaded cwd dst tmp X tree r tree')
    (hafter : tree'.Touches (fun _ => False) tree'') : Uploaded cwd dst tmp X tree r tree'' := by
  cases h with
  | staged touches => exact .staged (touches.trans (hafter.mono fun _ hf => hf.elim))
  | replaced touches tmp_gone content =>
      exact .replaced (touches.trans (hafter.mono fun _ hf => hf.elim))
        ((hafter.content not_false).trans tmp_gone) ((hafter.content not_false).trans content)

/-- What an upload makes of the files of `current`. -/
theorem acts (h : Uploaded cwd dst tmp X tree r tree')
    (hpaths : uploadPaths root rel = some (dst, tmp)) (hX : ∀ q, ¬ X (currentNode cwd root q)) :
    match r with
    | none => ∃ data, Acts cwd root (.stage (relNames (rel ++ syncingSuffix)) data) tree tree'
    | some data => Acts cwd root (.put (relNames (rel ++ syncingSuffix)) (relNames rel) data)
        tree tree' := by
  obtain ⟨hdst, htmp⟩ := uploadPaths_eq_some hpaths
  have hdstNode : resolve cwd dst = currentNode cwd root (relNames rel) := resolve_currentPath hdst
  have htmpNode : resolve cwd tmp = currentNode cwd root (relNames (rel ++ syncingSuffix)) :=
    resolve_syncingPath hdst htmp
  cases h with
  | staged touches =>
      refine ⟨tree'.content (resolve cwd tmp), ?_⟩
      funext q
      simp only [Effect.apply, currentFiles_apply]
      by_cases hq : q = relNames (rel ++ syncingSuffix)
      · subst hq
        rw [Function.update_self, htmpNode]
      · rw [Function.update_of_ne hq, currentFiles_apply]
        apply touches.content
        rw [htmpNode]
        rintro (h | h)
        · exact hX q h
        · exact hq (currentNode_inj h)
  | replaced touches tmp_gone content =>
      funext q
      simp only [Effect.apply, currentFiles_apply]
      by_cases hq : q = relNames rel
      · subst hq
        rw [Function.update_self, ← hdstNode, content]
      · rw [Function.update_of_ne hq]
        by_cases hqt : q = relNames (rel ++ syncingSuffix)
        · subst hqt
          rw [Function.update_self, ← htmpNode, tmp_gone]
        · rw [Function.update_of_ne hqt, currentFiles_apply]
          apply touches.content
          rw [htmpNode, hdstNode]
          rintro (h | h | h)
          · exact hX q h
          · exact hqt (currentNode_inj h)
          · exact hq (currentNode_inj h)

end Uploaded

/-- A program leaves a grounded tree besides what it is known to do. -/
theorem Prog.Safe.grounded {α : Type} {A : World → Prop} {Q : α → World → Prop}
    {p : Sys TreePath α} (h : p.Safe (Kernel cwd mayFail) A Q w) (hg : w.tree.Grounded) :
    p.Safe (Kernel cwd mayFail) A (fun a w' => w'.tree.Grounded ∧ Q a w') w := by
  have hgrounded : p.Safe (Kernel cwd mayFail) (fun w' => w'.tree.Grounded) _ w :=
    (all_true p).safe (fun _ _ _ _ _ hs (hK : Kernel cwd mayFail _ _ _ _) => hK.grounded hs) hg
  exact (h.and hgrounded).mono (fun _ h => h.1) fun _ _ h => ⟨h.2.2, h.1⟩

theorem Prog.Moves.grounded {α : Type} {S : World → World → Prop} {Q : α → World → Prop}
    {p : Sys TreePath α} (h : p.Moves (Kernel cwd mayFail) S Q w) (hg : w.tree.Grounded) :
    p.Safe (Kernel cwd mayFail) (fun _ => True)
      (fun a w' => w'.tree.Grounded ∧ S w w' ∧ Q a w') w := Safe.grounded h.moved hg

/-- No part of `.versions` is in `current`. -/
theorem not_version_current (q : TreePath) :
    ¬ InArea cwd root versionsName (currentNode cwd root q) :=
  fun h => not_inArea (by decide) h

theorem safe_publish_uploaded {data : Bytes} (header : SyncHeader)
    (htmp : syncingPath dst = some tmp) (hg : w.tree.Grounded)
    (hdata : w.tree.content (resolve cwd tmp) = some data)
    (hxdev : ¬ mayFail (.rename tmp dst) .xdev) :
    (publish fuel header tmp dst).Safe (Kernel cwd mayFail) (fun _ => True)
      (fun rc w' => match rc with
        | .ok => Uploaded cwd dst tmp X w.tree (some data) w'.tree
        | .err => Uploaded cwd dst tmp X w.tree none w'.tree) w := by
  apply (safe_renameTmp htmp hg hdata hxdev).bind
  rintro renamed w1 ⟨hfailed, hrenamed⟩
  cases renamed with
  | err => exact .staged ((hfailed rfl).1.mono fun _ => Or.inr)
  | ok =>
      obtain ⟨htouch, hgone, hdst⟩ := hrenamed rfl
      have hmeta : (setFileMetadata dst header.mode header.mtime).Moves (Kernel cwd mayFail) _ _ w1 :=
        moves_setFileMetadata (fun _ => False) dst header.mode header.mtime
      apply hmeta.moved.bind
      rintro _ w2 ⟨htidy, -⟩
      refine Uploaded.before (.replaced (htouch.mono fun _ => Or.inr) ?_ hdst) htidy.1
      unfold FileTree.content
      rw [hgone]

/-- The last part of `server_handle_file_begin`. -/
theorem safe_receiveFile_uploaded (header : SyncHeader) (htmp : syncingPath dst = some tmp)
    (hg : w.tree.Grounded) (hxdev : ¬ mayFail (.rename tmp dst) .xdev) :
    (receiveFile fuel header tmp dst).Safe (Kernel cwd mayFail) (fun _ => True)
      (fun r w' => match r with
        | .ok _ => ∃ data, Uploaded cwd dst tmp X w.tree (some data) w'.tree
        | .error _ => Uploaded cwd dst tmp X w.tree none w'.tree) w := by
  apply Safe.op_bind
  intro opened w1 hK
  refine ⟨trivial, ?_⟩
  have hg1 := hK.grounded hg
  rcases hK.openTrunc with ⟨⟨e, rfl⟩, rfl⟩ | ⟨rfl, hroot, -, htree, -⟩
  · exact .staged (.refl _ w1.tree)
  have hempty : w1.tree.content (resolve cwd tmp) = some [] := by
    rw [htree, FileTree.content_eq_some, FileTree.lookup_put hroot, if_pos rfl]
  have hopen : w.tree.Touches (fun q => q = resolve cwd tmp) w1.tree := htree ▸ .put hroot rfl
  have hrecv : (recvFileBlocksUntilEnd (resolve cwd tmp) header.total_hash fuel).Moves
      (Kernel cwd mayFail) _ _ w1 := moves_recvFileBlocksUntilEnd header.total_hash fuel hempty
  apply (hrecv.grounded hg1).bind
  rintro ⟨received, end_header⟩ w2 ⟨hg2, hhears, hstream⟩
  have hstaged := hopen.trans hhears.1
  apply (moves_syncAndClose (fun _ => False) _ received).moved.bind
  rintro closed w3 ⟨-, rfl, hclosed⟩
  split_ifs with hok
  · exact .staged (hstaged.mono fun _ => Or.inr)
  obtain ⟨blocks, -, hcontent⟩ := hstream (hclosed (Rc.ok_of_ne_err hok))
  have hhash : (hashFileFnv1a fuel tmp).Moves (Kernel cwd mayFail) (Tidy fun _ => False) _ w3 :=
    moves_hashFileFnv1a _ fuel tmp
  apply hhash.moved.bind
  rintro actual_hash w4 ⟨-, rfl, -⟩
  dsimp only
  split_ifs
  · exact .staged (hstaged.mono fun _ => Or.inr)
  apply (safe_publish_uploaded header htmp hg2 hcontent hxdev).bind
  intro rc w5 hpublished
  cases rc with
  | err => exact Uploaded.afterTmp hpublished hstaged
  | ok => exact ⟨_, Uploaded.afterTmp hpublished hstaged⟩

/-- Versions, and what is made on the way. -/
abbrev Versions (cwd : TreePath) (root : Bytes) : TreePath → Prop := InArea cwd root versionsName

theorem safe_fileBeginCritical_uploaded (header : SyncHeader)
    (hpaths : uploadPaths root rel = some (dst, tmp)) (hg : w.tree.Grounded)
    (hxdev : ¬ mayFail (.rename tmp dst) .xdev) :
    (fileBeginCritical fuel header root rel dst tmp).Safe (Kernel cwd mayFail) (fun _ => True)
      (fun r w' => match r with
        | .ok _ => ∃ data, Uploaded cwd dst tmp (Versions cwd root) w.tree (some data) w'.tree
        | .error _ => Uploaded cwd dst tmp (Versions cwd root) w.tree none w'.tree) w := by
  obtain ⟨hdst, htmp⟩ := uploadPaths_eq_some hpaths
  rw [fileBeginCritical_eq]
  have hmake : (ensureParentDirExists dst).Moves (Kernel cwd mayFail) _ _ w :=
    moves_ensureParentDirExists (Versions cwd root) dst
  apply (hmake.grounded hg).bind
  rintro made w1 ⟨hg1, htidy, -⟩
  split_ifs
  · exact .staged (htidy.1.mono fun _ => Or.inl)
  have hsave : (backupOldVersion fuel root rel).Moves (Kernel cwd mayFail) _ _ w1 :=
    moves_backupOldVersion hdst
  apply (hsave.grounded hg1).bind
  rintro saved w2 ⟨hg2, hversions, -⟩
  have hbefore := htidy.1.trans hversions.1
  split_ifs
  · exact .staged (hbefore.mono fun _ => Or.inl)
  apply (safe_receiveFile_uploaded header htmp hg2 hxdev).post
  intro r w3 huploaded
  cases r with
  | error e => exact Uploaded.after huploaded hbefore
  | ok _ =>
      obtain ⟨data, huploaded⟩ := huploaded
      exact ⟨data, huploaded.after hbefore⟩

theorem safe_blockStreamCritical_uploaded (first_block : SyncHeader)
    (hpaths : uploadPaths root rel = some (dst, tmp)) (hg : w.tree.Grounded)
    (hxdev : ¬ mayFail (.rename tmp dst) .xdev) :
    (blockStreamCritical fuel first_block root rel dst tmp).Safe (Kernel cwd mayFail)
      (fun _ => True)
      (fun r w' => match r with
        | .ok _ => ∃ data, Uploaded cwd dst tmp (Versions cwd root) w.tree (some data) w'.tree
        | .error _ => Uploaded cwd dst tmp (Versions cwd root) w.tree none w'.tree) w := by
  obtain ⟨hdst, htmp⟩ := uploadPaths_eq_some hpaths
  have htmpNode : resolve cwd tmp = currentNode cwd root (relNames (rel ++ syncingSuffix)) :=
    resolve_syncingPath hdst htmp
  rw [blockStreamCritical_eq]
  have hreceive : (receivePartial fuel first_block dst tmp).Moves (Kernel cwd mayFail) _ _ w :=
    moves_receivePartial first_block
  apply (hreceive.grounded hg).bind
  rintro received w1 ⟨hg1, hhears, hdata⟩
  cases received with
  | error e => exact .staged (hhears.1.mono fun _ => Or.inr)
  | ok _ =>
      obtain ⟨data, hdata⟩ := hdata rfl
      have hsave : (backupOldVersion fuel root rel).Moves (Kernel cwd mayFail) _ _ w1 :=
        moves_backupOldVersion hdst
      apply (hsave.grounded hg1).bind
      rintro saved w2 ⟨hg2, hversions, -⟩
      have hdata2 : w2.tree.content (resolve cwd tmp) = some data := by
        rw [← hdata]
        apply hversions.1.content
        rw [htmpNode]
        exact not_version_current _
      apply (safe_publish_uploaded (X := Versions cwd root) first_block htmp hg2 hdata2 hxdev).bind
      intro rc w3 hpublished
      cases rc with
      | err => exact (Uploaded.after hpublished hversions.1).afterTmp hhears.1
      | ok => exact ⟨data, (Uploaded.after hpublished hversions.1).afterTmp hhears.1⟩

/-! ## Deletes and renames -/

/-- The store is on one file system. -/
def OneStore (cwd : TreePath) (root : Bytes) (mayFail : Call TreePath → Errno → Prop) : Prop :=
  ∀ src dst, storeRoot cwd root <+: resolve cwd src → storeRoot cwd root <+: resolve cwd dst →
    ¬ mayFail (.rename src dst) .xdev

/-- A rename, as the files see it. -/
theorem content_of_renamed {src dst : Bytes} {r : Resp (.rename src dst)}
    (hK : Kernel cwd mayFail (.rename src dst) w r w') (hok : r = .ok ()) :
    w'.tree.content = FileMap.move (resolve cwd src) (resolve cwd dst) w.tree.content := by
  rcases hK.renameCases with ⟨⟨e, herr, -⟩, -⟩ | ⟨-, -, hren⟩
  · rw [herr] at hok
    cases hok
  · exact FileTree.content_rename hren

/-- `safe_rename_or_copy_unlink` on one file system moves, or does nothing to the files. -/
theorem safe_safeRenameOrCopyUnlink_files {src dst : Bytes}
    (hxdev : ¬ mayFail (.rename src dst) .xdev) :
    (safeRenameOrCopyUnlink fuel src dst).Safe (Kernel cwd mayFail) (fun _ => True)
      (fun rc w' => match rc with
        | .ok => w'.tree.content = FileMap.move (resolve cwd src) (resolve cwd dst) w.tree.content
        | .err => w'.tree.content = w.tree.content) w := by
  have hmake : (ensureParentDirExists dst).Moves (Kernel cwd mayFail) _ _ w :=
    moves_ensureParentDirExists (fun _ => False) dst
  apply hmake.moved.bind
  rintro made w1 ⟨htidy, -⟩
  have hsame : w1.tree.content = w.tree.content := funext fun q => htidy.1.content not_false
  cases made with
  | err => exact hsame
  | ok =>
      apply Safe.op_bind
      intro r w2 hK
      refine ⟨trivial, ?_⟩
      rcases hK.renameCases with ⟨⟨e, rfl, hmay⟩, rfl⟩ | ⟨rfl, -, -⟩
      · cases e with
        | xdev => exact absurd (hmay rfl) hxdev
        | _ => exact hsame
      · change w2.tree.content = _
        rw [content_of_renamed hK rfl, hsame]

/-- A delete removes the entry, if there is one; `g` is what follows where `access` finds
none. -/
theorem safe_moveToTrash_acts {g : Prop} (hone : OneStore cwd root mayFail)
    (haccess : ∀ src w1, currentPath root rel = some src →
      Kernel cwd mayFail (.access src) w false w1 → g) :
    (moveToTrash fuel root rel).Safe (Kernel cwd mayFail) (fun _ => True)
      (fun rc w' => match rc with
        | .ok => (g ∧ Acts cwd root .keep w.tree w'.tree) ∨
            Acts cwd root (.remove (relNames rel)) w.tree w'.tree
        | .err => Acts cwd root .keep w.tree w'.tree) w := by
  have hkeep : Acts cwd root .keep w.tree w.tree := rfl
  unfold moveToTrash
  cases hsrc : currentPath root rel with
  | none => exact hkeep
  | some src =>
      have hrel := (currentPath_eq_some hsrc).1
      have hsrcNode : resolve cwd src = currentNode cwd root (relNames rel) :=
        resolve_currentPath hsrc
      apply Safe.op_bind
      intro found w1 hK
      obtain rfl := hK.quiet trivial
      refine ⟨trivial, ?_⟩
      split_ifs with hfound
      · cases found with
        | true => exact absurd hfound (by decide)
        | false => exact Or.inl ⟨haccess src w1 hsrc hK, hkeep⟩
      apply (moves_makeTimestampDirname (fun _ => False)).moved.bind
      rintro stamp w2 ⟨-, rfl, hstamp⟩
      split
      · exact hkeep
      · rename_i dst hdst
        obtain ⟨s, hs, hpath⟩ := Option.bind_eq_some_iff.mp hdst
        obtain ⟨tm, rfl⟩ := hstamp s hs
        have hdstNode : resolve cwd dst = trashNode cwd root tm rel :=
          resolve_stampedPath name_trashName (name_timestampDirname tm) hrel hpath
        have hxdev : ¬ mayFail (.rename src dst) .xdev :=
          hone src dst (hsrcNode ▸ List.prefix_append _ _) (hdstNode ▸ List.prefix_append _ _)
        apply (safe_safeRenameOrCopyUnlink_files hxdev).post
        intro rc w3 hfiles
        cases rc with
        | err => exact acts_of_content_eq hfiles
        | ok =>
            right
            unfold Acts currentFiles
            rw [hfiles, hsrcNode, hdstNode, currentNode_eq]
            apply FileMap.below_move_out
            rintro r ⟨s, hs⟩
            rw [← currentNode_eq] at hs
            have hstored : storedNode cwd root trashName (timestampDirname tm) (relNames rel ++ s) =
                currentNode cwd root r := by
              rw [← storedNode_append]
              exact hs
            exact stored_ne_current (Or.inr rfl) hstored

/-- A rename within `current`, as its files see it. -/
theorem acts_move {old new old_path new_path : Bytes} (hold : currentPath root old = some old_path)
    (hnew : currentPath root new = some new_path)
    (h : tree'.content = FileMap.move (resolve cwd old_path) (resolve cwd new_path) tree.content) :
    Acts cwd root (.move (relNames old) (relNames new)) tree tree' := by
  have hnode {rel path : Bytes} (hpath : currentPath root rel = some path) :
      resolve cwd path = (storeRoot cwd root ++ [currentName]) ++ relNames rel :=
    (resolve_currentPath hpath).trans (currentNode_eq _)
  unfold Acts currentFiles
  rw [h, hnode hold, hnode hnew]
  exact FileMap.below_move

theorem safe_renameCritical_acts {old new old_path new_path : Bytes}
    (hold : currentPath root old = some old_path) (hnew : currentPath root new = some new_path)
    (hxdev : ¬ mayFail (.rename old_path new_path) .xdev) :
    (renameCritical fuel old_path new_path).Safe (Kernel cwd mayFail) (fun _ => True)
      (fun r w' => match r with
        | .ok _ => Acts cwd root (.move (relNames old) (relNames new)) w.tree w'.tree
        | .error _ => Acts cwd root .keep w.tree w'.tree) w := by
  have hmake : (ensureParentDirExists new_path).Moves (Kernel cwd mayFail) _ _ w :=
    moves_ensureParentDirExists (fun _ => False) new_path
  apply hmake.moved.bind
  rintro made w1 ⟨htidy, -⟩
  have hsame : w1.tree.content = w.tree.content := funext fun q => htidy.1.content not_false
  split_ifs
  · exact acts_of_content_eq hsame
  · apply (safe_safeRenameOrCopyUnlink_files hxdev).bind
    intro rc w2 hfiles
    cases rc with
    | err =>
        exact acts_of_content_eq (hfiles.trans hsame)
    | ok =>
        change Acts cwd root (.move (relNames old) (relNames new)) w.tree w2.tree
        have hfiles2 := (show w2.tree.content = _ from hfiles)
        rw [hsame] at hfiles2
        exact acts_move hold hnew hfiles2

end Effects

end MiniSync
