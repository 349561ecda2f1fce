import SotOs.Sotfs.BlockLedger
import SotOs.Lucas.BackendSpec

/-! The life of an inode slot through the calls: which calls fill it, which free it, and what they
do to its open count and to its owner in the session map. -/

namespace SotOs.Sotfs
open List Slots Function

structure GraphDrops (freed : Fin maxInodes → Prop) (g g' : Graph) : Prop where
  gone : ∀ i, freed i → g'.inodes i = none
  stays : ∀ i, ¬freed i →
    (g'.inodes i).map Inode.openCount = (g.inodes i).map Inode.openCount
  orphan : ∀ i n', g'.inodes i = some n' → n'.orphan = true → 0 < n'.openCount ∨
    ∃ n, g.inodes i = some n ∧ n.orphan = true ∧ n.openCount = n'.openCount

variable {g g' : Graph} {freed : Fin maxInodes → Prop} {c : Fin maxInodes}

theorem graphDrops_of_map {f : Fin maxInodes → Inode → Inode}
    (hg : ∀ i, g'.inodes i = (g.inodes i).map (f i))
    (hf : ∀ i n, (f i n).openCount = n.openCount ∧ (f i n).orphan = n.orphan) :
    GraphDrops (fun _ => False) g g' := by
  refine ⟨fun _ h => h.elim, ?_, ?_⟩
  · intro i _
    rw [hg, Option.map_map]
    cases g.inodes i with
    | none => rfl
    | some n => exact congrArg some (hf i n).1
  · intro i n' hn' horphan
    rw [hg] at hn'
    obtain ⟨n, hn, rfl⟩ := Option.map_eq_some_iff.mp hn'
    exact .inr ⟨n, hn, (hf i n).2.symm.trans horphan, (hf i n).1.symm⟩

theorem graphDrops_same (h : g'.inodes = g.inodes) : GraphDrops (fun _ => False) g g' :=
  graphDrops_of_map (f := fun _ n => n) (fun i => by rw [h, Option.map_id']) fun _ _ => ⟨rfl, rfl⟩

theorem modifyInode_inodes (g : Graph) (id : ℤ) (f : Inode → Inode) (i : Fin maxInodes) :
    (g.modifyInode id f).inodes i = (g.inodes i).map fun n => if id = toId i then f n else n := by
  have h := g.inode_modifyInode id f (toId i)
  rw [Graph.inode_toId, Graph.inode_toId] at h
  rw [h]
  by_cases hid : toId i = id
  · simp [hid]
  · simp [hid, Ne.symm hid]

variable {id : ℤ}

theorem graphDrops_modifyInode {f : Inode → Inode}
    (hf : ∀ n, (f n).openCount = n.openCount ∧ (f n).orphan = n.orphan) :
    GraphDrops (fun _ => False) g (g.modifyInode id f) := by
  apply graphDrops_of_map (f := fun i n => if id = toId i then f n else n)
  · exact modifyInode_inodes g id f
  · intro i n
    split_ifs
    · exact hf n
    · exact ⟨rfl, rfl⟩

theorem GraphDrops.trans_same {g'' : Graph} (h : GraphDrops freed g g')
    (hg : g''.inodes = g'.inodes) : GraphDrops freed g g'' := by
  refine ⟨?_, ?_, ?_⟩
  · intro i hi
    rw [hg]
    exact h.gone i hi
  · intro i hi
    rw [hg]
    exact h.stays i hi
  · intro i n' hn'
    rw [hg] at hn'
    exact h.orphan i n' hn'

theorem graphDrops_update {x : Option Inode} (hg : g'.inodes = update g.inodes c x)
    (hother : ∀ i, i ≠ c → ¬freed i) (hgone : freed c → x = none)
    (hstays : ¬freed c → x.map Inode.openCount = (g.inodes c).map Inode.openCount)
    (horphan : ∀ n', x = some n' → n'.orphan = true → 0 < n'.openCount ∨
      ∃ n, g.inodes c = some n ∧ n.orphan = true ∧ n.openCount = n'.openCount) :
    GraphDrops freed g g' := by
  have hself : g'.inodes c = x := by rw [hg, update_self]
  have hne : ∀ i, i ≠ c → g'.inodes i = g.inodes i := by
    intro i hi
    rw [hg, update_of_ne hi]
  refine ⟨?_, ?_, ?_⟩
  · intro i hi
    by_cases hic : i = c
    · subst hic
      rw [hself, hgone hi]
    · exact absurd hi (hother i hic)
  · intro i hi
    by_cases hic : i = c
    · subst hic
      rw [hself, hstays hi]
    · rw [hne i hic]
  · intro i n' hn' ho
    by_cases hic : i = c
    · subst hic
      rw [hself] at hn'
      exact horphan n' hn' ho
    · rw [hne i hic] at hn'
      exact .inr ⟨n', hn', ho, rfl⟩

theorem graphDrops_none (hnone : ∀ i, ¬freed i) (h : g'.inodes = g.inodes) :
    GraphDrops freed g g' :=
  ⟨fun i hi => absurd hi (hnone i), fun i _ => by rw [h],
    fun i n' hn' ho => .inr ⟨n', h ▸ hn', ho, rfl⟩⟩

theorem freeFileStorage_inodes {n : Inode} (hn : g.inodes c = some n) :
    (freeFileStorage g (toId c)).inodes = update g.inodes c none := by
  rw [freeFileStorage_live hn]
  rfl

variable {p : ℤ} {name : Name}

theorem unlink_drops :
    GraphDrops (fun i => Frees g (.unlink p name) (toId i)) g (unlink g p name).1 := by
  unfold unlink
  split_ifs with hname
  · refine graphDrops_none ?_ rfl
    intro i hi
    generalize toId i = f at hi
    cases hi
    contradiction
  have hunique : ∀ {j c}, lookupChild g p name = .ok (j, c) → ∀ i,
      Frees g (.unlink p name) (toId i) → i = c ∧ ∃ n, g.inodes c = some n ∧
        n.kind ≠ .dir ∧ n.nlink ≤ 1 ∧ n.openCount = 0 := by
    intro j c hlookup i hi
    generalize hf : toId i = f at hi
    cases hi with
    | unlink _ _ j' c' n _ hlookup' hn hkind hlink hclosed =>
      rw [hlookup] at hlookup'
      obtain ⟨rfl, rfl⟩ := Prod.mk.inj (Except.ok.inj hlookup')
      exact ⟨toId_injective hf, n, hn, hkind, hlink, hclosed⟩
  cases hlookup : lookupChild g p name with
  | error e =>
    refine graphDrops_none ?_ rfl
    intro i hi
    generalize toId i = f at hi
    cases hi with
    | unlink _ _ j' c' n _ hlookup' =>
      rw [hlookup] at hlookup'
      cases hlookup'
  | ok ic =>
    obtain ⟨j, c⟩ := ic
    have hother : ∀ i, i ≠ c → ¬Frees g (.unlink p name) (toId i) :=
      fun i hic hi => hic (hunique hlookup i hi).1
    have hwhen := fun hc : Frees g (.unlink p name) (toId c) => (hunique hlookup c hc).2
    simp only
    split_ifs with hkind
    · refine graphDrops_none ?_ rfl
      intro i hi
      obtain ⟨-, n, hn, hfile, -⟩ := hunique hlookup i hi
      exact hfile (by simpa [hn] using hkind)
    unfold dropLink
    cases hn : (g.setEdge j none).inodes c with
    | none =>
      refine graphDrops_none ?_ rfl
      intro i hi
      obtain ⟨-, n, hn', -⟩ := hunique hlookup i hi
      cases hn.symm.trans hn'
    | some n =>
      have hn' : g.inodes c = some n := hn
      have hfields : Frees g (.unlink p name) (toId c) → n.nlink ≤ 1 ∧ n.openCount = 0 := by
        intro hc
        obtain ⟨m, hm, -, hlink, hclosed⟩ := hwhen hc
        obtain rfl := Option.some.inj (hn'.symm.trans hm)
        exact ⟨hlink, hclosed⟩
      simp only
      split_ifs with hlink hopen
      · refine graphDrops_update (c := c) rfl hother (fun hc => ?_) (fun _ => by rw [hn']; rfl) ?_
        · have := (hfields hc).1
          omega
        · intro n' heq horphan
          obtain ⟨⟩ := heq
          exact .inr ⟨n, hn', horphan, rfl⟩
      · refine graphDrops_update (c := c) rfl hother (fun hc => ?_) (fun _ => by rw [hn']; rfl) ?_
        · have := (hfields hc).2
          omega
        · intro n' heq _
          obtain ⟨⟩ := heq
          exact .inl hopen
      · have hfree : Frees g (.unlink p name) (toId c) :=
          .unlink p name j c n hname hlookup hn' (by simpa [hn'] using hkind) (by omega) (by omega)
        have hinodes := freeFileStorage_inodes (g := (g.setEdge j none).setInode c
          (some { n with nlink := n.nlink - 1 })) (c := c) (update_self ..)
        refine graphDrops_update (c := c) (x := none) ?_ hother (fun _ => rfl)
          (fun hc => absurd hfree hc) (by simp)
        rw [hinodes]
        exact update_idem ..

theorem inodeClose_inodes (g : Graph) (id : ℤ) (i : Fin maxInodes) :
    (Frees g (.inodeClose id) (toId i) → (inodeClose g id).inodes i = none) ∧
      (¬Frees g (.inodeClose id) (toId i) → (inodeClose g id).inodes i =
        (g.inodes i).map fun n =>
          if id = toId i then { n with openCount := n.openCount - 1 } else n) := by
  unfold inodeClose
  cases hn : g.inode id with
  | none =>
    have hmap : ((g.inodes i).map fun n =>
        if id = toId i then { n with openCount := n.openCount - 1 } else n) = g.inodes i := by
      by_cases hid : id = toId i
      · rw [hid, Graph.inode_toId] at hn
        rw [hn, Option.map_none]
      · simp only [hid, if_false, Option.map_id']
    refine ⟨fun hfrees => ?_, fun _ => hmap.symm⟩
    generalize toId i = f at hfrees
    cases hfrees with
    | inodeClose _ n hn' => cases hn.symm.trans hn'
  | some n =>
    obtain ⟨c, rfl, hc⟩ := Graph.inode_eq_some.mp hn
    have hfields : Frees g (.inodeClose (toId c)) (toId i) →
        i = c ∧ n.openCount - 1 = 0 ∧ n.orphan = true := by
      intro hfrees
      generalize hf : toId i = f at hfrees
      cases hfrees with
      | inodeClose _ m hm horphan hlast =>
        obtain rfl := Option.some.inj (hn.symm.trans hm)
        exact ⟨toId_injective hf, by omega, horphan⟩
    simp only
    by_cases hlast : n.openCount - 1 = 0 ∧ n.orphan = true
    · rw [if_pos hlast]
      have hfrees : Frees g (.inodeClose (toId c)) (toId c) :=
        .inodeClose _ n hn hlast.2 (by omega)
      have hlive := modifyInode_inodes g (toId c)
        (fun n => { n with openCount := n.openCount - 1 }) c
      rw [hc, Option.map_some] at hlive
      rw [freeFileStorage_inodes hlive]
      refine ⟨fun h => by rw [(hfields h).1, update_self], fun h => ?_⟩
      have hic : i ≠ c := by
        rintro rfl
        exact h hfrees
      rw [update_of_ne hic, modifyInode_inodes]
    · rw [if_neg hlast]
      exact ⟨fun h => absurd (hfields h).2 hlast, fun _ => modifyInode_inodes ..⟩

def FreesDir (g : Graph) (p : ℤ) (name : Name) (c : Fin maxInodes) : Prop :=
  name ≠ [] ∧ (∃ j, lookupChild g p name = .ok (j, c)) ∧
    (g.inodes c).map (·.kind) = some .dir ∧ dirHasChildren g (Slots.toId c) = false

theorem rmdir_drops : GraphDrops (FreesDir g p name) g (rmdir g p name).1 := by
  unfold rmdir
  split_ifs with hname
  · exact graphDrops_none (fun i hi => hi.1 hname) rfl
  cases hlookup : lookupChild g p name with
  | error e =>
    refine graphDrops_none ?_ rfl
    rintro i ⟨-, ⟨j, hj⟩, -⟩
    rw [hlookup] at hj
    cases hj
  | ok ic =>
    obtain ⟨j, c⟩ := ic
    have hunique : ∀ i, FreesDir g p name i → i = c := by
      rintro i ⟨-, ⟨j', hj'⟩, -⟩
      rw [hlookup] at hj'
      exact (Prod.mk.inj (Except.ok.inj hj')).2.symm
    simp only
    split_ifs with hkind hchildren
    · refine graphDrops_none ?_ rfl
      intro i hi
      obtain rfl := hunique i hi
      exact hkind hi.2.2.1
    · refine graphDrops_none ?_ rfl
      intro i hi
      obtain rfl := hunique i hi
      rw [hi.2.2.2] at hchildren
      cases hchildren
    · have hfree : FreesDir g p name c :=
        ⟨hname, ⟨j, hlookup⟩, by simpa using hkind, by simpa using hchildren⟩
      exact graphDrops_update (c := c) (x := none) rfl (fun i hic hi => hic (hunique i hi))
        (fun _ => rfl) (fun hc => absurd hfree hc) (by simp)

end SotOs.Sotfs

namespace SotOs.Lucas
open Sotfs List Slots Function

structure Drops (freed : Fin maxInodes → Prop) (s s' : Fs) : Prop where
  graph : GraphDrops freed s.graph s'.graph
  handles : s'.handles = s.handles
  owner : s'.sessions.owner = s.sessions.owner

abbrev Quiet : Fs → Fs → Prop := Drops fun _ => False

variable {i : Fin maxInodes}

theorem sessionOwner_toId {s : Sessions} : sessionOwner s (toId i) = s.owner i := by
  rw [sessionOwner, ofId_toId]

theorem owner_of_sessionOwner {s s' : Sessions}
    (h : ∀ id, sessionOwner s' id = sessionOwner s id) : s'.owner = s.owner := by
  funext i
  rw [← sessionOwner_toId, h, sessionOwner_toId]

def mayUnlink (env : Env) (s : Fs) (p : ℤ) (leaf : Name) : Bool :=
  !(env.isolated && env.session != 0) || (findEdge s.graph p leaf).any fun tgt =>
    sessionOwner s.sessions (Slots.toId tgt) == env.session

def unlinkPlace (env : Env) (root : ℤ) (path : List UInt8) (s : Fs) : Option (ℤ × Name) :=
  if env.isolated && env.session == 0 then none
  else (named s.graph root path).bind fun pl =>
    if mayUnlink env s pl.1 pl.2 then some pl else none

def rmdirPlace (env : Env) (root : ℤ) (path : List UInt8) (s : Fs) : Option (ℤ × Name) :=
  if env.isolated && env.session == 0 then none else named s.graph root path

def renamePlace (env : Env) (root : ℤ) (oldpath newpath : List UInt8) (s : Fs) :
    Option (ℤ × Name) :=
  if env.isolated && env.session == 0 then none
  else if stripTmpPrefix oldpath = stripTmpPrefix newpath then none
  else if (named s.graph root oldpath).isSome then named s.graph root newpath else none

def removedAt (rule : Graph → ℤ → Name → Graph × Except Err Unit) (g : Graph) :
    Option (ℤ × Name) → Graph
  | none => g
  | some pl => (rule g pl.1 pl.2).1

theorem unlinkRoot_graph (env : Env) (root : ℤ) (path : List UInt8) (s : Fs) :
    (unlinkRoot env root path s).1.graph = removedAt unlink s.graph (unlinkPlace env root path s) := by
  unfold unlinkRoot unlinkPlace
  split
  · rfl
  cases hsplit : splitPath (stripTmpPrefix path) with
  | none =>
    rw [named, hsplit]
    rfl
  | some pl =>
    obtain ⟨parentPath, leaf⟩ := pl
    simp only
    cases hres : resolvePathFrom s.graph root parentPath with
    | none =>
      rw [named, hsplit]
      simp only [Option.bind_some, hres]
      rfl
    | some p =>
      rw [named_eq hsplit hres, Option.bind_some]
      simp only
      unfold mayUnlink
      cases hcontained : (env.isolated && env.session != 0) with
      | false =>
        simp only [Bool.false_and, Bool.false_eq_true, if_false, Bool.not_false, Bool.true_or, if_true]
        cases hunlink : unlink s.graph p leaf with
        | mk g' out => cases out <;> simp [removedAt, hunlink]
      | true =>
        simp only [Bool.true_and, Bool.not_true, Bool.false_or, if_true]
        rcases hfind : findEdge s.graph p leaf with _ | tgt
        · simp [removedAt]
        by_cases hmine : sessionOwner s.sessions (toId tgt) = env.session
        · cases hunlink : unlink s.graph p leaf with
          | mk g' out => cases out <;> simp [removedAt, hunlink, hmine]
        · simp [removedAt, hmine]

theorem rmdirRoot_graph (env : Env) (root : ℤ) (path : List UInt8) (s : Fs) :
    (rmdirRoot env root path s).1.graph = removedAt rmdir s.graph (rmdirPlace env root path s) := by
  unfold rmdirRoot rmdirPlace
  split
  · rfl
  cases hsplit : splitPath (stripTmpPrefix path) with
  | none =>
    rw [named, hsplit]
    rfl
  | some pl =>
    obtain ⟨parentPath, leaf⟩ := pl
    simp only
    cases hres : resolvePathFrom s.graph root parentPath with
    | none =>
      rw [named, hsplit]
      simp only [Option.bind_some, hres]
      rfl
    | some p =>
      rw [named_eq hsplit hres]
      cases hrmdir : rmdir s.graph p leaf with
      | mk g' out => cases out <;> simp [removedAt, hrmdir, Fs.log]

theorem rename_inodes (g : Graph) (pSrc : ℤ) (old : Name) (pDst : ℤ) (new : Name) :
    (rename g pSrc old pDst new).1.inodes = g.inodes := by
  have h := rename_renamed g pSrc old pDst new
  generalize rename g pSrc old pDst new = out at h ⊢
  obtain ⟨g', rc⟩ := out
  cases h <;> rfl

variable {g g' : Graph} {p : ℤ} {s s' : Fs} {buf : List UInt8} {env : Env} {name : Name}
  {mode : UInt32} {i : Fin maxInodes}

theorem unlink_missing {leaf : Name} (h : findEdge g p leaf = none) : (unlink g p leaf).1 = g := by
  unfold unlink lookupChild
  split
  · rfl
  cases checkDir g p with
  | some e => rfl
  | none =>
    rw [h]

theorem renameRoot_inodes {root : ℤ} {oldpath newpath : List UInt8} :
    (renameRoot env root oldpath newpath s).1.graph.inodes =
      (removedAt unlink s.graph (renamePlace env root oldpath newpath s)).inodes := by
  have honto : ∀ hadDst credit pSrc sleaf pDst dleaf (t : Fs),
      (renameOnto env hadDst credit pSrc sleaf pDst dleaf t).1.graph.inodes = t.graph.inodes := by
    intro hadDst credit pSrc sleaf pDst dleaf t
    have hinodes := rename_inodes t.graph pSrc sleaf pDst dleaf
    unfold renameOnto
    cases hren : rename t.graph pSrc sleaf pDst dleaf with
    | mk g' out =>
      rw [hren] at hinodes
      cases out with
      | error e => exact hinodes
      | ok u => cases hadDst <;> exact hinodes
  unfold renameRoot renamePlace
  split
  · rfl
  simp only
  split
  · rfl
  cases hsplitSrc : splitPath (stripTmpPrefix oldpath) with
  | none =>
    rw [named, hsplitSrc]
    rfl
  | some spl =>
    obtain ⟨sparent, sleaf⟩ := spl
    cases hsplitDst : splitPath (stripTmpPrefix newpath) with
    | none => simp [named, hsplitDst, removedAt]
    | some dpl =>
      obtain ⟨dparent, dleaf⟩ := dpl
      cases hsrc : resolvePathFrom s.graph root sparent with
      | none => simp [named, hsplitSrc, hsrc, removedAt]
      | some pSrc =>
        cases hdst : resolvePathFrom s.graph root dparent with
        | none => simp [named, hsplitDst, hsrc, hdst, removedAt]
        | some pDst =>
          rw [named_eq hsplitSrc hsrc, named_eq hsplitDst hdst]
          simp only [Option.isSome_some, if_true, hsrc, hdst, removedAt]
          cases hfind : findEdge s.graph pDst dleaf with
          | none =>
            rw [unlink_missing hfind]
            exact honto ..
          | some tgt =>
            simp only
            cases hunlink : unlink s.graph pDst dleaf with
            | mk g' out =>
              cases out with
              | error e => rfl
              | ok u => exact honto ..

theorem unlinkRoot_drops (env : Env) (root : ℤ) (path : List UInt8) (s : Fs) :
    Drops (fun i => ∃ pl, unlinkPlace env root path s = some pl ∧
      Frees s.graph (.unlink pl.1 pl.2) (toId i)) s (unlinkRoot env root path s).1 := by
  have hdone := unlinkRoot_done env root path s
  refine ⟨?_, ?_, ?_⟩
  · rw [unlinkRoot_graph]
    cases unlinkPlace env root path s with
    | none => exact graphDrops_none (by simp) rfl
    | some pl => simpa [removedAt] using unlink_drops
  · generalize (unlinkRoot env root path s).1 = s' at hdone
    cases hdone with
    | same => rfl
    | unlinked => simp
  · generalize (unlinkRoot env root path s).1 = s' at hdone
    cases hdone with
    | same => rfl
    | unlinked _ _ howner =>
      rw [logUnlessSession_sessions]
      exact owner_of_sessionOwner howner

theorem rmdirRoot_drops (env : Env) (root : ℤ) (path : List UInt8) (s : Fs) :
    Drops (fun i => ∃ pl, rmdirPlace env root path s = some pl ∧ FreesDir s.graph pl.1 pl.2 i) s
      (rmdirRoot env root path s).1 := by
  have hdone := rmdirRoot_done env root path s
  refine ⟨?_, ?_, ?_⟩
  · rw [rmdirRoot_graph]
    cases rmdirPlace env root path s with
    | none => exact graphDrops_none (by simp) rfl
    | some pl => simpa [removedAt] using rmdir_drops
  · generalize (rmdirRoot env root path s).1 = s' at hdone
    cases hdone <;> rfl
  · generalize (rmdirRoot env root path s).1 = s' at hdone
    cases hdone <;> rfl

theorem renameRoot_drops (env : Env) (root : ℤ) (oldpath newpath : List UInt8) (s : Fs) :
    Drops (fun i => ∃ pl, renamePlace env root oldpath newpath s = some pl ∧
      Frees s.graph (.unlink pl.1 pl.2) (toId i)) s
      (renameRoot env root oldpath newpath s).1 := by
  have hdone := renameRoot_done env root oldpath newpath s
  refine ⟨?_, ?_, ?_⟩
  · refine GraphDrops.trans_same ?_ renameRoot_inodes
    cases renamePlace env root oldpath newpath s with
    | none => exact graphDrops_none (by simp) rfl
    | some pl => simpa [removedAt] using unlink_drops
  · generalize (renameRoot env root oldpath newpath s).1 = s' at hdone
    cases hdone <;> rfl
  · generalize (renameRoot env root oldpath newpath s).1 = s' at hdone
    cases hdone with
    | same => rfl
    | moved => rfl
    | lost => rfl
    | replaced _ _ _ howner => exact owner_of_sessionOwner howner

theorem Quiet.refl (s : Fs) : Quiet s s := ⟨graphDrops_same rfl, rfl, rfl⟩

theorem quiet_modifyInode {id : ℤ} {f : Inode → Inode}
    (hgraph : s'.graph = s.graph.modifyInode id f) (hhandles : s'.handles = s.handles)
    (howner : s'.sessions.owner = s.sessions.owner)
    (hf : ∀ n, (f n).openCount = n.openCount ∧ (f n).orphan = n.orphan) : Quiet s s' :=
  ⟨hgraph ▸ graphDrops_modifyInode hf, hhandles, howner⟩

theorem Quiet.trans {s'' : Fs} (h : Quiet s s') (h' : Quiet s' s'') : Quiet s s'' := by
  refine ⟨⟨fun _ hi => hi.elim, ?_, ?_⟩, h'.handles.trans h.handles, h'.owner.trans h.owner⟩
  · intro i hi
    exact (h'.graph.stays i hi).trans (h.graph.stays i hi)
  · intro i n'' hn'' horphan
    rcases h'.graph.orphan i n'' hn'' horphan with hopen | ⟨n', hn', horphan', hcount'⟩
    · exact .inl hopen
    · rw [← hcount']
      exact h.graph.orphan i n' hn' horphan'

variable {id : ℤ}

theorem applyPendingHint_quiet : Quiet s (s.applyPendingHint env id) := by
  unfold Fs.applyPendingHint
  split_ifs
  · exact quiet_modifyInode rfl rfl rfl fun _ => ⟨rfl, rfl⟩
  · exact .refl s

theorem stampWrite_quiet : Quiet s (s.stampWrite env id) :=
  quiet_modifyInode rfl rfl rfl fun _ => ⟨rfl, rfl⟩

theorem fileWrite_quiet {d d' : Blkdev} {id : ℤ} {off : ℕ} {rc : Except Err ℕ}
    (h : fileWrite g d id off buf = (g', d', rc)) : GraphDrops (fun _ => False) g g' := by
  have hw := fileWrite_written g d id off buf
  rw [h] at hw
  cases hw with
  | nothing => exact graphDrops_same rfl
  | cut n hn hkind g' d' hrounds => exact graphDrops_same (rounds_frame hrounds).inodes
  | whole n hn hkind g₁ d₁ hrounds size written =>
    have hframe := (rounds_frame hrounds).inodes
    apply graphDrops_of_map (f := fun i n =>
      if id = toId i then (if n.size < size then { n with size } else n) else n)
    · intro i
      rw [modifyInode_inodes, show g₁.inodes = g.inodes from hframe]
    · intro i n
      split_ifs <;> exact ⟨rfl, rfl⟩

theorem WriteDone.quiet {h : Fin handlePool} {cursor : ℤ} (hd : WriteDone env h buf cursor s s') :
    Quiet s s' := by
  cases hd with
  | aside sessions cow howner => exact ⟨graphDrops_same rfl, rfl, owner_of_sessionOwner howner⟩
  | @contained i off sessions howner hiso hmine g' d' rc hw s' hs' =>
    have hq : Quiet s { s with sessions, graph := g', dev := d' } :=
      ⟨fileWrite_quiet hw, rfl, owner_of_sessionOwner howner⟩
    rcases hs' with rfl | rfl
    · exact hq
    · exact hq.trans (stampWrite_quiet ..)
  | refused i hslot hiso hw => exact ⟨fileWrite_quiet hw, rfl, rfl⟩
  | logged i hslot hiso hw =>
    refine Quiet.trans ?_ (applyPendingHint_quiet ..)
    refine Quiet.trans ?_ (stampWrite_quiet ..)
    exact ⟨fileWrite_quiet hw, rfl, rfl⟩

theorem opRead_dev (env : Env) (h : Fin handlePool) (count : ℕ) (cursor : ℤ) (s : Fs) :
    ∃ dev, (opRead env h count cursor s).1 = { s with dev } := by
  unfold opRead
  split
  · exact ⟨s.dev, rfl⟩
  simp only
  split
  · exact ⟨s.dev, rfl⟩
  split
  · exact ⟨s.dev, rfl⟩
  split
  · exact ⟨s.dev, rfl⟩
  split
  · exact ⟨_, rfl⟩
  · exact ⟨_, rfl⟩

theorem opRead_quiet (env : Env) (h : Fin handlePool) (count : ℕ) (cursor : ℤ) (s : Fs) :
    Quiet s (opRead env h count cursor s).1 := by
  obtain ⟨dev, hdev⟩ := opRead_dev env h count cursor s
  rw [hdev]
  exact ⟨graphDrops_same rfl, rfl, rfl⟩

structure Made (env : Env) (i : Fin maxInodes) (s s' : Fs) : Prop where
  dead : s.graph.inodes i = none
  inode : ∃ n, s'.graph.inodes i = some n ∧ n.openCount = 0 ∧ n.orphan = false
  others : ∀ k, k ≠ i → s'.graph.inodes k = s.graph.inodes k
  handles : s'.handles = s.handles
  owner : s'.sessions.owner =
    if env.session = 0 then s.sessions.owner else Function.update s.sessions.owner i env.session

theorem tag_handles : (s.tag env id).handles = s.handles := by
  unfold Fs.tag
  split_ifs <;> rfl

theorem tag_owner : (s.tag env (toId i)).sessions.owner =
      if env.session = 0 then s.sessions.owner
      else update s.sessions.owner i env.session := by
  unfold Fs.tag sessionTag
  rw [ofId_toId]
  split_ifs <;> rfl

theorem createNode_inodes {kind : Kind} {id : ℤ} (h : createNode kind g p name mode = (g', .ok id)) :
    ∃ i, id = toId i ∧ g.inodes i = none ∧
      g'.inodes = update g.inodes i (some (.fresh kind mode)) := by
  have hcreated := createNode_created kind g p name mode
  rw [h] at hcreated
  cases hcreated with
  | created i j hname hlen hdir hfind hi hj => exact ⟨i, rfl, hi, rfl⟩

theorem addNode_made {kind : Kind} {id : ℤ} (h : createNode kind s.graph p name mode = (g', .ok id)) :
    ∃ i, Made env i s (s.addNode env kind p name mode g' id) := by
  obtain ⟨i, rfl, hi, hinodes⟩ := createNode_inodes h
  have hslot : ∀ k, (s.addNode env kind p name mode g' (toId i)).graph.inodes k =
      (g'.inodes k).map fun n => if toId i = toId k then
        { n with mtime := env.now, ctime := env.now, atime := env.now } else n := by
    intro k
    rw [addNode_graph, modifyInode_inodes]
  refine ⟨i, hi, ?_, ?_, ?_, ?_⟩
  · rw [hslot, hinodes, update_self, Option.map_some, if_pos rfl]
    exact ⟨_, rfl, rfl, rfl⟩
  · intro k hk
    have hne : toId i ≠ toId k := fun heq => hk (toId_injective heq).symm
    rw [hslot, hinodes, update_of_ne hk]
    simp only [hne, if_false, Option.map_id']
  · simp [Fs.addNode, tag_handles, Fs.stampCreate]
  · simp [Fs.addNode, tag_owner, Fs.stampCreate]

theorem NodeStep.quiet_or_made (h : NodeStep env s s') : Quiet s s' ∨ ∃ i, Made env i s s' := by
  cases h with
  | made kind p name mode g' id hkind hnul hcreate => exact .inr (addNode_made hcreate)
  | tried kind p name mode g' e hcreate =>
    have hcreated := createNode_created kind s.graph p name mode
    rw [hcreate] at hcreated
    cases hcreated with
    | failed _ _ hsame => exact .inl ⟨graphDrops_same hsame.inodes, rfl, rfl⟩
  | hinted id => exact .inl applyPendingHint_quiet

structure Reaped (slots : List (Fin maxInodes)) (g g' : Graph) : Prop where
  inodes : ∀ i, g'.inodes i = if i ∈ slots then none else g.inodes i
  edges : ∀ k e, g'.edges k = some e ↔ g.edges k = some e ∧ ∀ i ∈ slots, e.childId ≠ Slots.toId i
  blocks : ∀ k b, g'.blocks k = some b ↔ g.blocks k = some b ∧ ∀ i ∈ slots, b.fileId ≠ Slots.toId i
  rootId : g'.rootId = g.rootId

theorem Reaped.cons {slots : List (Fin maxInodes)} {g'' : Graph} (h : Reaped [i] g g')
    (h' : Reaped slots g' g'') : Reaped (i :: slots) g g'' := by
  refine ⟨?_, ?_, ?_, h'.rootId.trans h.rootId⟩
  · intro k
    rw [h'.inodes, h.inodes]
    simp only [mem_cons, not_mem_nil, or_false]
    split_ifs <;> first | rfl | simp_all
  · intro k e
    rw [h'.edges, h.edges, forall_mem_singleton, forall_mem_cons, and_assoc]
  · intro k b
    rw [h'.blocks, h.blocks, forall_mem_singleton, forall_mem_cons, and_assoc]

def withoutBlocks (id : ℤ) (l : List (Fin maxBlocks)) (blocks : Fin maxBlocks → Option Block)
    (k : Fin maxBlocks) : Option Block :=
  if k ∈ l then (blocks k).filter fun b => b.fileId != id else blocks k

theorem foldl_reapBlock {l : List (Fin maxBlocks)} : ∀ (g : Graph) (d : Blkdev),
    (l.foldl (reapBlock id) (g, d)).1 = { g with blocks := withoutBlocks id l g.blocks } := by
  induction l with
  | nil => intro g d; rfl
  | cons i l ih =>
    intro g d
    have hself : ∀ {x}, g.blocks i = x → g.setBlock i x = g := by
      rintro x rfl
      rw [Graph.setBlock, update_eq_self]
    have hstep : ∃ d', reapBlock id (g, d) i =
        (g.setBlock i ((g.blocks i).filter fun b => b.fileId != id), d') := by
      unfold reapBlock
      rcases hb : g.blocks i with _ | b
      · exact ⟨d, by rw [Option.filter_none, hself hb]⟩
      simp only
      split_ifs with hid
      · exact ⟨blkFree d b.diskBlk, by rw [Option.filter_some_neg (by simpa using hid)]⟩
      · exact ⟨d, by rw [Option.filter_some_pos (by simpa using hid), hself hb]⟩
    obtain ⟨d', hd'⟩ := hstep
    rw [foldl_cons, hd', ih]
    simp only [Graph.setBlock]
    congr 1
    funext k
    by_cases hk : k = i
    · subst hk
      simp [withoutBlocks, Option.filter_filter]
    · simp [withoutBlocks, hk]

theorem reapInode_reaped (g : Graph) (d : Blkdev) (i : Fin maxInodes) :
    Reaped [i] g (reapInode (g, d) i).1 := by
  unfold reapInode
  rw [Prod.map_fst, foldl_reapBlock]
  unfold reapEdges freeInode
  rw [ofId_toId]
  refine ⟨?_, ?_, ?_, rfl⟩
  · intro k
    by_cases hk : k = i
    · subst hk
      simp [Graph.setInode]
    · simp [Graph.setInode, hk]
  · intro k e
    simp [Graph.setInode, Option.filter_eq_some_iff]
  · intro k b
    simp [Graph.setInode, withoutBlocks, Option.filter_eq_some_iff]

theorem foldl_reapInode {slots : List (Fin maxInodes)} : ∀ (g : Graph) (d : Blkdev),
    Reaped slots g (slots.foldl reapInode (g, d)).1 := by
  induction slots with
  | nil =>
    intro g d
    exact ⟨by simp, by simp, by simp, rfl⟩
  | cons i slots ih =>
    intro g d
    have hfirst := reapInode_reaped g d i
    rw [foldl_cons]
    generalize reapInode (g, d) i = out at hfirst ⊢
    obtain ⟨g', d'⟩ := out
    exact hfirst.cons (ih g' d')

def ownedSlots (s : Fs) (session : UInt32) : List (Fin maxInodes) :=
  (List.finRange maxInodes).filter fun i => s.sessions.owner i == session

variable {session : UInt32}

theorem mem_ownedSlots :
    i ∈ ownedSlots s session ↔ s.sessions.owner i = session := by
  simp [ownedSlots]

theorem sessionReap_reaped (s : Fs) (hsession : session ≠ 0) :
    Reaped (ownedSlots s session) s.graph (sessionReap session s).graph := by
  unfold sessionReap ownedSlots
  rw [if_neg hsession]
  simp only
  generalize (finRange maxInodes).filter (fun i => s.sessions.owner i == session) = owned
  exact foldl_reapInode s.graph s.dev

theorem sessionReap_owner (hsession : session ≠ 0) :
    (sessionReap session s).sessions.owner i =
      if s.sessions.owner i = session then 0 else s.sessions.owner i := by
  unfold sessionReap sessionClear
  rw [if_neg hsession, if_neg hsession]

end SotOs.Lucas
