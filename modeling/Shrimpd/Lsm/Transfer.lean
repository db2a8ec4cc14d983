import Shrimpd.Lsm.Publish

/-!
# Transferring a part between nodes

A node serves its part files under `/part/{id}`, and a replica downloads a part from
its origin or, failing that, from the other live nodes in turn.  The handler reads
every block before it sends the file, so what arrives is the first intact copy, byte
for byte.  A read error in the middle of the transfer is the exception: the status
has been sent by then, and the text of the error becomes the end of the part.
-/

namespace Shrimpd.Lsm.Transfer

open Shrimpd.Lib Shrimpd.Types Shrimpd.Block Shrimpd.Block.Format Shrimpd.Lsm.Publish

/-! ## Compressed streams -/

inductive Algo where
  | zstd
  | gzip
  | plain
  deriving DecidableEq, Repr

def algoMagic : List (Algo × Bytes) := [(.zstd, [0x28, 0xb5, 0x2f, 0xfd]), (.gzip, [0x1f, 0x8b])]

def detectAlgo (head : Bytes) : Algo :=
  match algoMagic.find? fun m => m.2.isPrefixOf head with
  | some m => m.1
  | none => .plain

/-- A decoder returns what it made of a stream, and whether it came to the end without an error.
`legacy` decodes a JSON block and encodes it again. -/
structure Codecs where
  zstd : Bytes → Bytes × Bool
  gzip : Bytes → Bytes × Bool
  legacy : Bytes × Bool → Option Bytes

def openBlockReader (c : Codecs) (data : Bytes) : Bytes × Bool :=
  match detectAlgo (data.take 4) with
  | .zstd => c.zstd data
  | .gzip => c.gzip data
  | .plain => (data, true)

/-! ## The server -/

inductive ServeErr where
  | notExist
  | other
  | panics
  deriving DecidableEq

/-- What the disk answers while a part is served: to `os.Open`, to `OpenPartV2`, which opens the
path once more, and to the reads, which may fail after some bytes. -/
structure Disk where
  opened : Except ServeErr Bytes
  reopened : Except ServeErr Bytes
  failsAfter : Option Nat

/-- What has been written to the response, and the error. -/
structure Served where
  encoding : Bytes
  written : Bytes
  err : Option ServeErr

/-- The bytes that can be read before the error, if there is one. -/
def Disk.readable (d : Disk) (file : Bytes) : Bytes :=
  match d.failsAfter with
  | none => file
  | some n => file.take n

def Disk.readErr (d : Disk) : Option ServeErr := d.failsAfter.map fun _ => .other

section Transfer

variable (env : Env) (c : Codecs)

/-- A part that is gone is not checked. -/
def verifyErr : Except ServeErr Bytes → Option ServeErr
  | .error .notExist => none
  | .error err => some err
  | .ok file =>
      match openPartV2 (some file) with
      | .error .panics => some .panics
      | .error _ => some .other
      | .ok none => none
      | .ok (some pf) =>
          match verifyPartV2 env pf with
          | .error err => some (if ReadErr.isPanic err then .panics else .other)
          | .ok _ => none

def serveLocalPart (d : Disk) (acceptZstd : Bool) : Served :=
  match d.opened with
  | .error err => ⟨[], [], some err⟩
  | .ok file =>
      match verifyErr env d.reopened with
      | some err => ⟨[], [], some err⟩
      | none =>
          -- the first four bytes are peeked at
          if d.failsAfter.any (· < 4) then ⟨[], [], some .other⟩
          else
            match detectAlgo (file.take 4), acceptZstd with
            | .zstd, true => ⟨ascii "zstd", d.readable file, d.readErr⟩
            | .zstd, false =>
                let out := openBlockReader c (d.readable file)
                ⟨[], out.1, if out.2 then d.readErr else some .other⟩
            | _, _ => ⟨[], d.readable file, d.readErr⟩

structure Response where
  status : Nat
  encoding : Bytes
  body : Bytes

def errorText (id : Bytes) (err : ServeErr) : Bytes :=
  ascii (if err = .notExist then "part not found: " else "failed to serve part: ") ++ id ++
    ascii "\n"

/-- The first byte of the body sends the status 200.  After a panic there is no response. -/
def handlePart (id : Bytes) (s : Served) : Option Response :=
  match s.err with
  | none => some ⟨200, s.encoding, s.written⟩
  | some .panics => none
  | some err =>
      if s.written = [] then
        some ⟨if err = .notExist then 404 else 500, [], errorText id err⟩
      else some ⟨200, s.encoding, s.written ++ errorText id err⟩

/-! ## The client -/

inductive FetchErr where
  | transport
  | status (code : Nat)
  | decode
  deriving DecidableEq

def tryFetchPartFrom : Option Response → Except FetchErr Bytes
  | none => .error .transport
  | some resp =>
      if resp.status ≠ 200 then .error (.status resp.status)
      else
        let out := openBlockReader c resp.body
        let body := if resp.encoding ≠ [] && out.2 then out.1 else resp.body
        if body.take 4 = magicShrimp then .ok body
        else
          match c.legacy (openBlockReader c body) with
          | none => .error .decode
          | some buf => .ok buf

def candidates (addr : Bytes) (extra : List Bytes) : List Bytes :=
  addr :: extra.filter fun a => a ≠ addr

def tryEach (fetch : Bytes → Except FetchErr Bytes) :
    List Bytes → List (Bytes × FetchErr) → Except (List (Bytes × FetchErr)) Bytes
  | [], errs => .error errs
  | addr :: rest, errs =>
      match fetch addr with
      | .ok raw => .ok raw
      | .error err => tryEach fetch rest (errs ++ [(addr, err)])

/-- The answer of a node to a replica, which accepts gzip only. -/
def answer (peers : Bytes → Option Disk) (id addr : Bytes) : Option Response :=
  (peers addr).bind fun d => handlePart id (serveLocalPart env c d false)

/-- The download of part `id`; `peers` has the disks of the nodes that answer. -/
def fetchRemotePart (peers : Bytes → Option Disk) (id addr : Bytes) (extra : List Bytes) :
    Except (List (Bytes × FetchErr)) Bytes :=
  tryEach (fun a => tryFetchPartFrom c (answer env c peers id a)) (candidates addr extra) []

/-- The node at the address has a copy of the part all of which can be read. -/
def Holds (peers : Bytes → Option Disk) (addr raw : Bytes) : Prop :=
  ∃ d, peers addr = some d ∧ d.opened = .ok raw ∧ verifies env (some raw) = true

end Transfer

/-- The path names one file throughout, and its reads do not fail. -/
structure Disk.Steady (d : Disk) : Prop where
  same : d.reopened = d.opened
  reads : d.failsAfter = none

/-! ## What arrives -/

section Arrives

variable {env : Env} {c : Codecs} {d : Disk} {peers : Bytes → Option Disk} {id addr raw : Bytes}

theorem openPartV2_some_cases (raw : Bytes) :
    (∃ err, openPartV2 (some raw) = .error err) ∨
      ∃ pf, openPartV2 (some raw) = .ok (some pf) ∧ raw.take 4 = magicShrimp := by
  cases hopen : openPartV2 (some raw) with
  | error err => exact .inl ⟨err, rfl⟩
  | ok pf? =>
      simp only [openPartV2] at hopen
      split at hopen <;> try cases hopen
      split at hopen <;> try cases hopen
      rename_i hmagic
      repeat' split at hopen
      all_goals cases hopen
      exact .inr ⟨_, rfl, not_not.mp hmagic⟩

theorem magic_of_verifies (h : verifies env (some raw) = true) : raw.take 4 = magicShrimp := by
  obtain ⟨pf, hopen, -⟩ := verifies_iff.mp h
  rcases openPartV2_some_cases raw with ⟨err, herr⟩ | ⟨_, -, hmagic⟩
  · rw [hopen] at herr
    cases herr
  · exact hmagic

theorem verifyErr_ok_iff : verifyErr env (.ok raw) = none ↔ verifies env (some raw) = true := by
  rw [verifies_iff, verifyErr]
  rcases openPartV2_some_cases raw with ⟨err, hopen⟩ | ⟨pf, hopen, -⟩
  · cases err <;> simp [hopen]
  · cases hverify : verifyPartV2 env pf <;> simp [hopen, hverify]

/-- A part file that passes the check is sent as it is. -/
theorem serveLocalPart_verified (hopened : d.opened = .ok raw) (hsame : d.reopened = d.opened)
    (hverifies : verifies env (some raw) = true) (hreads : ∀ n, d.failsAfter = some n → 4 ≤ n) :
    serveLocalPart env c d false = ⟨[], d.readable raw, d.readErr⟩ := by
  have halgo : detectAlgo (raw.take 4) = .plain := by
    rw [magic_of_verifies hverifies]
    decide
  have hpeek : d.failsAfter.any (· < 4) = false := by
    cases hfails : d.failsAfter with
    | none => rfl
    | some n => simpa using hreads n hfails
  simp [serveLocalPart, hsame, hopened, verifyErr_ok_iff.mpr hverifies, hpeek, halgo]

/-- A steady disk has an intact file, which is sent, or nothing is sent. -/
theorem serveLocalPart_steady (hd : d.Steady) :
    (∃ raw, d.opened = .ok raw ∧ verifies env (some raw) = true ∧
      serveLocalPart env c d false = ⟨[], raw, none⟩) ∨
    (∀ raw, d.opened = .ok raw → verifies env (some raw) = false) ∧
      ∃ err, serveLocalPart env c d false = ⟨[], [], some err⟩ := by
  cases hopened : d.opened with
  | error err => exact .inr ⟨by simp, err, by simp [serveLocalPart, hopened]⟩
  | ok file =>
      cases hcheck : verifyErr env (.ok file) with
      | none =>
          have hverifies := verifyErr_ok_iff.mp hcheck
          have hserved := serveLocalPart_verified (c := c) hopened hd.same hverifies
            (by simp [hd.reads])
          exact .inl ⟨file, rfl, hverifies, by simpa [Disk.readable, Disk.readErr, hd.reads] using
            hserved⟩
      | some err =>
          refine .inr ⟨?_, err, by simp [serveLocalPart, hd.same, hopened, hcheck]⟩
          rintro _ ⟨⟩
          refine Bool.eq_false_iff.mpr fun hverifies => ?_
          rw [verifyErr_ok_iff.mpr hverifies] at hcheck
          cases hcheck

theorem tryFetch_ok_iff (hsteady : ∀ d, peers addr = some d → d.Steady) :
    tryFetchPartFrom c (answer env c peers id addr) = .ok raw ↔ Holds env peers addr raw := by
  unfold answer Holds
  cases hpeer : peers addr with
  | none => simp [tryFetchPartFrom]
  | some d =>
      rcases @serveLocalPart_steady env c d (hsteady d hpeer) with
        ⟨file, hopened, hverifies, hserved⟩ | ⟨hbad, err, hserved⟩
      · have hfetched : tryFetchPartFrom c (handlePart id (serveLocalPart env c d false)) =
            .ok file := by
          simp [hserved, handlePart, tryFetchPartFrom, magic_of_verifies hverifies]
        rw [Option.bind_some, hfetched]
        constructor
        · rintro ⟨⟩
          exact ⟨d, rfl, hopened, hverifies⟩
        · rintro ⟨_, ⟨⟩, hraw, -⟩
          simpa using hopened.symm.trans hraw
      · refine iff_of_false ?_ ?_
        · cases err <;> simp [hserved, handlePart, tryFetchPartFrom]
        · rintro ⟨_, ⟨⟩, hraw, hverifies⟩
          rw [hbad raw hraw] at hverifies
          cases hverifies

/-- The loop ends at the first success; if there is none, it has an error of every candidate. -/
theorem tryEach_spec (fetch : Bytes → Except FetchErr Bytes) (addrs : List Bytes)
    (errs : List (Bytes × FetchErr)) :
    (∃ pre a post raw, addrs = pre ++ a :: post ∧ (∀ b ∈ pre, ∀ raw, fetch b ≠ .ok raw) ∧
      fetch a = .ok raw ∧ tryEach fetch addrs errs = .ok raw) ∨
    ((∀ b ∈ addrs, ∀ raw, fetch b ≠ .ok raw) ∧ ∃ more, tryEach fetch addrs errs =
      .error (errs ++ more) ∧ more.map Prod.fst = addrs) := by
  induction addrs generalizing errs with
  | nil => exact .inr ⟨by simp, [], by simp [tryEach]⟩
  | cons a rest ih =>
      cases hfetch : fetch a with
      | ok raw => exact .inl ⟨[], a, rest, raw, rfl, by simp, hfetch, by simp [tryEach, hfetch]⟩
      | error err =>
          have hfailed : ∀ raw, fetch a ≠ .ok raw := by simp [hfetch]
          have hnext : tryEach fetch (a :: rest) errs = tryEach fetch rest (errs ++ [(a, err)]) := by
            simp [tryEach, hfetch]
          rw [hnext]
          rcases ih (errs ++ [(a, err)]) with ⟨pre, b, post, raw, rfl, hpre, hb, hres⟩ |
            ⟨hrest, more, hres, hmore⟩
          · exact .inl ⟨a :: pre, b, post, raw, rfl, List.forall_mem_cons.mpr ⟨hfailed, hpre⟩, hb,
              hres⟩
          · exact .inr ⟨List.forall_mem_cons.mpr ⟨hfailed, hrest⟩, (a, err) :: more,
              by simp [hres], by simp [hmore]⟩

end Arrives

/-- If no file changes or fails under the server, the replica gets the copy of the first candidate
with an intact one, as it stands on that disk; if no candidate has one, every candidate is in the
error, in order. -/
theorem fetch_first_intact_copy (env : Env) (c : Codecs) (peers : Bytes → Option Disk)
    (id addr : Bytes) (extra : List Bytes) (hsteady : ∀ a d, peers a = some d → d.Steady) :
    (∃ pre a post raw, candidates addr extra = pre ++ a :: post ∧
      (∀ b ∈ pre, ∀ raw, ¬ Holds env peers b raw) ∧ Holds env peers a raw ∧
      fetchRemotePart env c peers id addr extra = .ok raw) ∨
    ((∀ b ∈ candidates addr extra, ∀ raw, ¬ Holds env peers b raw) ∧
      ∃ errs, fetchRemotePart env c peers id addr extra = .error errs ∧
        errs.map Prod.fst = candidates addr extra) := by
  have hspec := tryEach_spec (fun a => tryFetchPartFrom c (answer env c peers id a))
    (candidates addr extra) []
  simpa only [fetchRemotePart, ne_eq, tryFetch_ok_iff (hsteady _), List.nil_append] using hspec

def noCodecs : Codecs := ⟨fun _ => ([], false), fun _ => ([], false), fun _ => none⟩

/-- The origin has lost the part, and another node has it. -/
def demoPeers (addr : Bytes) : Option Disk :=
  if addr = ascii "n1" then some ⟨.error .notExist, .error .notExist, none⟩
  else if addr = ascii "n3" then some ⟨.ok demoRaw, .ok demoRaw, none⟩
  else none

theorem steady_demoPeers (a : Bytes) (d : Disk) (hd : demoPeers a = some d) : d.Steady := by
  unfold demoPeers at hd
  split at hd
  · cases hd
    exact ⟨rfl, rfl⟩
  · split at hd <;> cases hd
    exact ⟨rfl, rfl⟩

theorem holds_demoPeers : Holds plainEnv demoPeers (ascii "n3") demoRaw :=
  ⟨⟨.ok demoRaw, .ok demoRaw, none⟩, rfl, rfl,
    verifies_writePartV2Seq (fun _ => rfl) fits_threeRows⟩

theorem fetch_demoPeers : fetchRemotePart plainEnv noCodecs demoPeers (ascii "a") (ascii "n1")
    [ascii "n3"] = .ok demoRaw := by
  have hfirst : tryFetchPartFrom noCodecs
      (answer plainEnv noCodecs demoPeers (ascii "a") (ascii "n1")) = .error (.status 404) := rfl
  have hnext : tryFetchPartFrom noCodecs
      (answer plainEnv noCodecs demoPeers (ascii "a") (ascii "n3")) = .ok demoRaw :=
    (tryFetch_ok_iff (steady_demoPeers _)).mpr holds_demoPeers
  have haddrs : candidates (ascii "n1") [ascii "n3"] = [ascii "n1", ascii "n3"] := by decide
  simp [fetchRemotePart, haddrs, tryEach, hfirst, hnext]

theorem fetch_first_intact_copy_demoPeers :
    ∃ raw, fetchRemotePart plainEnv noCodecs demoPeers (ascii "a") (ascii "n1")
      [ascii "n1", ascii "n2", ascii "n3"] = .ok raw := by
  rcases fetch_first_intact_copy plainEnv noCodecs demoPeers (ascii "a") (ascii "n1")
    [ascii "n1", ascii "n2", ascii "n3"] steady_demoPeers with
    ⟨_, _, _, raw, -, -, -, hfetch⟩ | ⟨hnone, -⟩
  · exact ⟨raw, hfetch⟩
  · exact absurd holds_demoPeers (hnone _ (by decide) _)

/-! ## What is listed then -/

/-- If the bytes of each download come from nodes that are steady, then a call for one part
publishes only what can be read, and the file of the part it lists is a copy of a node's. -/
theorem steady_peers_publish_copies {env : Env} {r : Replica} {cl : Call} (c : Codecs)
    (net : Bytes → Bytes → Option Disk) (hsteady : ∀ id a d, net id a = some d → d.Steady)
    (hcl : Enabled r cl) (hboot : ∀ io snap, cl ≠ .bootstrap io snap)
    (hfetched : ∀ io part raw, Downloads r cl io part raw → ∃ addr extra,
      fetchRemotePart env c (net part.id) part.id addr extra = .ok raw) :
    Published env r cl ∧ ∀ p ∈ (call env r cl).1.parts, p.id ∉ r.listed →
      ∃ a raw, Holds env (net p.id) a raw ∧ (call env r cl).1.files p.id = some raw := by
  have hholds : ∀ io part raw, Downloads r cl io part raw → ∃ a, Holds env (net part.id) a raw := by
    intro io part raw hdown
    obtain ⟨addr, extra, hfetch⟩ := hfetched io part raw hdown
    rcases tryEach_spec (fun a => tryFetchPartFrom c (answer env c (net part.id) part.id a))
      (candidates addr extra) [] with ⟨_, a, _, raw', -, -, ha, hres⟩ | ⟨-, _, hres, -⟩
    · obtain rfl : raw' = raw := Except.ok.inj (hres.symm.trans hfetch)
      exact ⟨a, (tryFetch_ok_iff (hsteady part.id a)).mp ha⟩
    · cases hres.symm.trans hfetch
  have hsound : ∀ io part raw, Downloads r cl io part raw → sound env raw = true := by
    intro io part raw hdown
    obtain ⟨_, _, -, -, hverifies⟩ := hholds io part raw hdown
    exact sound_of_verifies hverifies
  refine ⟨published_of_sound hcl hsound hboot, ?_⟩
  cases hcall : call env r cl with
  | mk r' out =>
      intro p hp hnew
      have hold : ∀ {parts : List PartMeta}, parts = r.parts → p ∉ parts := by
        rintro _ rfl hmem
        exact hnew (List.mem_map_of_mem hmem)
      cases called_of_call hcall hcl with
      | idle => exact absurd hp (hold rfl)
      | panics _ hstored => exact absurd hp (hold hstored.touches.parts_eq)
      | deferred _ hstored => exact absurd hp (hold hstored.touches.parts_eq)
      | listed hdown hstored hlists hindex =>
          obtain ⟨fds, rfl⟩ := reindex_fds hindex
          rcases hlists.parts_subset p hp with hmem | rfl
          · exact absurd hmem (hold hstored.touches.parts_eq)
          · obtain ⟨a, ha⟩ := hholds _ _ _ hdown
            obtain ⟨-, hfile, -⟩ := hstored.of_done (hsound _ _ _ hdown)
            cases hstored with
            | stored hrebuild =>
                rw [id_of_rebuild hrebuild] at hfile ⊢
                exact ⟨a, _, ha, hlists.files_eq ▸ hfile⟩
      | unloaded => exact absurd rfl (hboot _ _)
      | loaded => exact absurd rfl (hboot _ _)

theorem steady_peers_publish_copies_demoPeers :
    Published plainEnv (fresh (ascii "n2")) (.apply (.clean demoRaw) (demoPut (ascii "a"))) := by
  have hcl : Enabled (fresh (ascii "n2")) (.apply (.clean demoRaw) (demoPut (ascii "a"))) := trivial
  refine (steady_peers_publish_copies noCodecs (fun _ => demoPeers) (fun _ => steady_demoPeers) hcl
    (by simp) ?_).1
  rintro _ _ _ ⟨-, ⟨⟩⟩
  exact ⟨_, _, fetch_demoPeers⟩

/-- A disk that fails while a part is sent is not noticed: the replica takes what had been read,
followed by the text of the error, for the part. -/
theorem cut_transfer_accepted {env : Env} {c : Codecs} {peers : Bytes → Option Disk} {d : Disk}
    {addr raw : Bytes} {n : Nat} (hpeer : peers addr = some d) (hopened : d.opened = .ok raw)
    (hsame : d.reopened = d.opened) (hverifies : verifies env (some raw) = true)
    (hfails : d.failsAfter = some n) (hn : 4 ≤ n) (id : Bytes) (extra : List Bytes) :
    fetchRemotePart env c peers id addr extra = .ok (raw.take n ++ errorText id .other) := by
  have hmagic := magic_of_verifies hverifies
  have hserved := serveLocalPart_verified (c := c) hopened hsame hverifies (by simp [hfails, hn])
  have hlen : 4 ≤ (raw.take n).length := by
    have hfour := congrArg List.length hmagic
    simp only [List.length_take, show magicShrimp.length = 4 by decide] at hfour ⊢
    omega
  have hhead : (raw.take n ++ errorText id .other).take 4 = magicShrimp := by
    rw [List.take_append_of_le_length hlen, List.take_take, min_eq_left hn, hmagic]
  have hsent : raw.take n ≠ [] := by
    intro hempty
    simp [hempty] at hlen
  simp [fetchRemotePart, candidates, tryEach, answer, hpeer, hserved, Disk.readable, Disk.readErr,
    hfails, handlePart, hsent, tryFetchPartFrom, hhead]

def cutRaw : Bytes := demoRaw.take 2180 ++ errorText (ascii "a") .other

/-- The file breaks off in its last block.  The replica lists the part, which cannot be read. -/
theorem cut_transfer_accepted_demoRaw :
    fetchRemotePart plainEnv noCodecs (fun _ => some ⟨.ok demoRaw, .ok demoRaw, some 2180⟩)
        (ascii "a") (ascii "n1") [ascii "n3"] = .ok cutRaw ∧
      verifies plainEnv (some cutRaw) = false ∧
      (call plainEnv (fresh (ascii "n2"))
        (.apply (.clean cutRaw) (demoPut (ascii "a")))).1.listed = [ascii "a"] := by
  refine ⟨?_, by decide +kernel, by decide +kernel⟩
  exact cut_transfer_accepted rfl rfl rfl holds_demoPeers.choose_spec.2.2 rfl (by decide) _ _

end Shrimpd.Lsm.Transfer
