import Cs252.Http.OpenFiles
import Cs252.Http.Survival

/-!
# Cs252.Http.Serving

`run_linear_server` and `run_forking_server` of `lab5-src/server.c`, from the
first connection on, for any sequence of what `accept` finds.

The linear server gives back every descriptor, so no connection is answered
otherwise for the connections before it; but the first one that `handle` does not
survive is the end of the server.

The forking server survives everything, for it is a child that handles a
connection. The parent, though, never closes its own descriptor of a connection.
So no client sees the end of its connection, and after `limit - 4` of them there
is no descriptor left: every further call of `accept` fails, and the loop forks
children that read from a socket which is `NULL`.
-/

namespace Cs252.Http

/-- `accept_connection`, for its `number`th call. -/
def acceptConnection (limit : Nat) (t : Descriptors OpenFile) (number : Nat) :
    Option Client → Option Socket × Descriptors OpenFile
  | none => (none, t)
  | some client =>
    match t.openBelow limit (some (.connection number)) with
    | (none, t) => (none, t)
    | (some fd, t) => (some ⟨fd, client⟩, t)

/-- The descriptors of the server once it listens. -/
def listening : Descriptors OpenFile :=
  ⟨[some .standard, some .standard, some .standard, some .master]⟩

theorem below_listening : listening.Below 4
  | 0 | 1 | 2 | 3 => by simp [listening, Descriptors.get]
  | fd + 4 => by simp [listening, Descriptors.get]

/-- What `handle` sends in a process with `used` descriptors, for what `accept`
finds then. -/
def replyTo (limit used : Nat) : Option Client → Except Fault (List UInt8)
  | none => .error .null
  | some client =>
    if used < limit then handle (client.host.within (limit - (used + 1))) client.input
    else .error .null

section

variable {reads : Reads} {limit number n : Nat} {t : Descriptors OpenFile} {found : Option Client}

/-- A call of `accept` that opens no descriptor. -/
theorem acceptConnection_null (h : t.Below n) (hnull : found = none ∨ limit ≤ n) :
    acceptConnection limit t number found = (none, t) ∧ replyTo limit n found = .error .null := by
  cases found with
  | none => exact ⟨rfl, rfl⟩
  | some client =>
    have hle := hnull.resolve_left nofun
    exact ⟨by rw [acceptConnection, h.openBelow_of_le hle], if_neg (Nat.not_lt.mpr hle)⟩

theorem acceptConnection_some (h : t.Below n) (hlt : n < limit) (client : Client) :
    acceptConnection limit t number (some client) =
      (some ⟨n, client⟩, t.put n (.connection number)) := by
  rw [acceptConnection, h.openBelow_of_lt hlt]

/-- `accept` and `handle` leave the descriptors as they were. -/
theorem handleOn_acceptConnection (h : t.Below n)
    (hprint : ∀ client ∈ found, client.host.PrintsLittle) :
    Restores t (handleOn reads limit (acceptConnection limit t number found).2
      (acceptConnection limit t number found).1) (replyTo limit n found) := by
  by_cases hnull : found = none ∨ limit ≤ n
  · obtain ⟨haccept, hreply⟩ := @acceptConnection_null limit number n t found h hnull
    rw [haccept, hreply]
    exact .error t .null
  · rw [not_or, Nat.not_le] at hnull
    obtain ⟨client, rfl⟩ := Option.ne_none_iff_exists'.mp hnull.1
    rw [acceptConnection_some h hnull.2, replyTo, if_pos hnull.2]
    exact handleOn_eq h (hprint client rfl) number

end

/-! ### One process for all connections -/

/-- How a run of the linear server relates to the replies that each call of
`accept` leads to by itself: it has given all of them, or those before the first
one that fails. -/
inductive Served (t : Descriptors OpenFile) (each : List (Except Fault (List UInt8))) :
    List (List UInt8) × Except Fault (Descriptors OpenFile) → Prop
  | all {replies : List (List UInt8)} {t' : Descriptors OpenFile} :
      each = replies.map .ok → t'.Same t → Served t each (replies, .ok t')
  | upTo {replies : List (List UInt8)} {fault : Fault} {rest : List (Except Fault (List UInt8))} :
      each = replies.map .ok ++ .error fault :: rest → Served t each (replies, .error fault)

/-- Another reply before a run. -/
theorem Served.cons {t t' : Descriptors OpenFile} {each : List (Except Fault (List UInt8))}
    {run : List (List UInt8) × Except Fault (Descriptors OpenFile)} (hrun : Served t' each run)
    (hsame : t'.Same t) (sent : List UInt8) :
    Served t (.ok sent :: each) (sent :: run.1, run.2) := by
  cases hrun with
  | all heach hfinal => exact .all (by rw [heach, List.map_cons]) (hfinal.trans hsame)
  | upTo heach => exact .upTo (by rw [heach, List.map_cons, List.cons_append])

/-- What a server sends that has all the descriptors it needs. -/
def answer : Option Client → Except Fault (List UInt8)
  | none => .error .null
  | some client => handle client.host client.input

theorem replyTo_eq_answer {limit used : Nat} (h : used + 4 ≤ limit) (found : Option Client) :
    replyTo limit used found = answer found := by
  cases found with
  | none => rfl
  | some client =>
    rw [replyTo, if_pos (by omega), Host.within_of_le _ (by omega)]
    rfl

/-- A pipe that is read a byte at a time. -/
def byteReads : Reads where
  pieces output := output.map ([·])
  flatten_pieces output := by
    induction output with
    | nil => rfl
    | cons c output ih => rw [List.map_cons, List.flatten_cons, ih, List.singleton_append]
  length_le output piece hpiece := by
    obtain ⟨c, -, rfl⟩ := List.mem_map.mp hpiece
    exact Nat.le_add_left 1 15

/-- Someone who asks for the two bytes of `index.html`. -/
def indexClient : Client where
  host := .single ⟨ascii "hi", true⟩ (ascii "text/html\n") [1, 1, 1, 0] (by decide)
  input := ascii "GET / HTTP/1.1\r\n\r\n"

theorem indexClient_prints : indexClient.host.PrintsLittle := by
  intro path status output h
  obtain ⟨rfl, rfl⟩ := Prod.mk.inj (Option.some.inj h)
  decide

/-- A round of `run_forking_server`. -/
structure Call where
  /-- What `accept` finds. -/
  found : Option Client
  /-- `fork` succeeds. -/
  forks : Bool

/-- The loop of `run_forking_server`: what is sent to each client, if anything,
and the descriptors of the parent in the end. -/
def forkingLoop (reads : Reads) (limit number : Nat) (t : Descriptors OpenFile) :
    List Call → List (Option (List UInt8)) × Descriptors OpenFile
  | [] => ([], t)
  | call :: calls =>
    let (sock, t) := acceptConnection limit t number call.found
    -- the child has a copy of the table, and `waitpid` returns however it ends
    let reply := if call.forks then (handleOn reads limit t sock).toOption.map Prod.fst else none
    let (replies, final) := forkingLoop reads limit (number + 1) t calls
    (reply :: replies, final)

/-- The descriptors in use after some rounds. -/
def inUse (limit n : Nat) (calls : List Call) : Nat :=
  min limit (n + calls.countP (·.found.isSome))

/-- What a round sends, in a parent with `used` descriptors. -/
def Call.reply (limit used : Nat) (call : Call) : Option (List UInt8) :=
  if call.forks then (replyTo limit used call.found).toOption else none

theorem toOption_map {α β : Type} (x : Except Fault α) (f : α → β) :
    (x.map f).toOption = x.toOption.map f := by
  cases x <;> rfl

theorem inUse_nil {limit n : Nat} (h : n ≤ limit) : inUse limit n [] = n := Nat.min_eq_right h

theorem inUse_cons (limit n : Nat) (call : Call) (calls : List Call) :
    inUse limit n (call :: calls) = inUse limit (inUse limit n [call]) calls := by
  simp only [inUse, List.countP_cons, List.countP_nil]
  omega

theorem le_inUse {limit n : Nat} (h : n ≤ limit) (calls : List Call) : n ≤ inUse limit n calls :=
  Nat.le_min.mpr ⟨h, Nat.le_add_right _ _⟩

/-- What the parent keeps of a call of `accept`. -/
theorem acceptConnection_table {limit n : Nat} {t : Descriptors OpenFile} (h : t.Below n)
    (hn : n ≤ limit) (number : Nat) (call : Call) :
    let t' := (acceptConnection limit t number call.found).2
    t'.Below (inUse limit n [call]) ∧ (∀ fd < n, t'.get fd = t.get fd) ∧
      (∀ client, call.found = some client → n < limit → t'.get n = some (.connection number)) := by
  by_cases hnull : call.found = none ∨ limit ≤ n
  · have hsame : inUse limit n [call] = n := by
      rcases hnull with hnone | hle
      · simp only [inUse, List.countP_singleton, hnone, Option.isSome_none]
        exact Nat.min_eq_right hn
      · exact Nat.le_antisymm (Nat.le_trans (Nat.min_le_left _ _) hle) (le_inUse hn _)
    rw [(acceptConnection_null h hnull).1, hsame]
    refine ⟨h, fun _ _ => rfl, fun client hsome hlt => ?_⟩
    rcases hnull with hnone | hle
    · rw [hsome] at hnone
      cases hnone
    · exact absurd hlt (Nat.not_lt.mpr hle)
  · rw [not_or, Nat.not_le] at hnull
    obtain ⟨client, hsome⟩ := Option.ne_none_iff_exists'.mp hnull.1
    have hone : inUse limit n [call] = n + 1 := by
      simp only [inUse, List.countP_singleton, hsome, Option.isSome_some, if_true]
      exact Nat.min_eq_right hnull.2
    rw [hsome, acceptConnection_some h hnull.2, hone]
    exact ⟨h.put _, fun fd hfd => Descriptors.get_put_of_ne (Nat.ne_of_lt hfd),
      fun _ _ _ => Descriptors.get_put_self⟩

theorem call_reply {reads : Reads} {limit number n : Nat} {t : Descriptors OpenFile} {call : Call}
    (h : t.Below n) (hprint : ∀ client ∈ call.found, client.host.PrintsLittle) :
    (if call.forks then
      (handleOn reads limit (acceptConnection limit t number call.found).2
        (acceptConnection limit t number call.found).1).toOption.map Prod.fst
      else none) = call.reply limit n := by
  rw [Call.reply, ← (@handleOn_acceptConnection reads limit number _ _ _ h hprint).result,
    toOption_map]

/-- The loop, a round at a time: what a child does with its copy of the table is
gone when it exits, and the parent has one descriptor more. -/
theorem forkingLoop_eq {reads : Reads} {limit n : Nat} {calls : List Call}
    {t : Descriptors OpenFile} (number : Nat) (h : t.Below n) (hn : n ≤ limit)
    (hprint : ∀ call ∈ calls, ∀ client ∈ call.found, client.host.PrintsLittle) :
    let run := forkingLoop reads limit number t calls
    run.1 = calls.mapIdx (fun k call => call.reply limit (inUse limit n (calls.take k))) ∧
      (∀ fd < n, run.2.get fd = t.get fd) ∧
      ∀ k call client, calls[k]? = some call → call.found = some client →
        inUse limit n (calls.take k) < limit →
        run.2.get (inUse limit n (calls.take k)) = some (.connection (number + k)) := by
  induction calls generalizing t number n with
  | nil => exact ⟨rfl, fun _ _ => rfl, nofun⟩
  | cons call calls ih =>
    obtain ⟨hbelow, hkept, hopened⟩ := acceptConnection_table h hn number call
    have hround := @call_reply reads limit number n t call h (hprint call List.mem_cons_self)
    obtain ⟨hreplies, hrest, hconnections⟩ := ih (number + 1) hbelow (Nat.min_le_left _ _)
      fun call' hcall => hprint call' (List.mem_cons_of_mem _ hcall)
    have hle := le_inUse hn [call]
    rw [forkingLoop]
    simp only [hround]
    refine ⟨?_, fun fd hfd => ?_, fun k call' client hcall hfound hlt => ?_⟩
    · rw [List.mapIdx_cons, hreplies, List.take_zero, inUse_nil hn]
      refine congrArg (call.reply limit n :: ·) ?_
      refine congrArg (List.mapIdx · calls) (funext fun k => funext fun call' => ?_)
      rw [List.take_succ_cons, ← inUse_cons limit n call]
    · rw [hrest fd (Nat.lt_of_lt_of_le hfd hle), hkept fd hfd]
    · cases k with
      | zero =>
        obtain rfl : call = call' := Option.some.inj hcall
        rw [List.take_zero, inUse_nil hn] at hlt ⊢
        have hone : n < inUse limit n [call] := by
          simp only [inUse, List.countP_singleton, hfound, Option.isSome_some, if_true]
          omega
        rw [hrest n hone]
        exact hopened client hfound hlt
      | succ k =>
        rw [List.take_succ_cons, inUse_cons] at hlt ⊢
        rw [hconnections k call' client hcall hfound hlt, Nat.add_right_comm, Nat.add_assoc]

/-- **The forking server.** Whatever becomes of the other connections, a client for whom
there is a child is answered as it would be alone by a process with as many
descriptors, and not at all where there is none left; and every connection that is
accepted is still open in the end, with a child or without. -/
theorem forking_server (reads : Reads) {limit : Nat} (hlimit : 4 ≤ limit) (calls : List Call)
    (hprint : ∀ call ∈ calls, ∀ client ∈ call.found, client.host.PrintsLittle) :
    let run := forkingLoop reads limit 0 listening calls
    let used := fun k => min limit (4 + (calls.take k).countP (·.found.isSome))
    run.1.length = calls.length ∧
      (∀ k client, calls[k]? = some ⟨some client, true⟩ →
        (used k + 4 ≤ limit →
          run.1[k]? = some (handle client.host client.input).toOption) ∧
        (used k < limit →
          run.1[k]? =
            some (handle (client.host.within (limit - (used k + 1))) client.input).toOption) ∧
        (used k = limit → run.1[k]? = some none)) ∧
      ∀ k client forks, calls[k]? = some ⟨some client, forks⟩ → used k < limit →
        run.2.get (used k) = some (.connection k) := by
  intro run used
  obtain ⟨hreplies, -, hconnections⟩ := @forkingLoop_eq reads limit 4 calls listening 0
    below_listening hlimit hprint
  refine ⟨by rw [hreplies, List.length_mapIdx], fun k client hcall => ?_,
    fun k client forks hcall hlt => ?_⟩
  · have hreply : run.1[k]? = some (replyTo limit (used k) (some client)).toOption := by
      show (forkingLoop reads limit 0 listening calls).1[k]? = _
      rw [hreplies, List.getElem?_mapIdx, hcall]
      rfl
    refine ⟨fun hroom => ?_, fun hlt => ?_, fun hfull => ?_⟩
    · rw [hreply, replyTo_eq_answer hroom]
      rfl
    · rw [hreply, replyTo, if_pos hlt]
    · rw [hreply, hfull, replyTo, if_neg (Nat.lt_irrefl limit)]
      rfl
  · have hopen := hconnections k _ client hcall rfl hlt
    rw [Nat.zero_add] at hopen
    exact hopen

/-- Two clients, and room for the first one only. -/
theorem forking_server_two :
    let run := forkingLoop byteReads 5 0 listening
      [⟨some indexClient, true⟩, ⟨some indexClient, true⟩]
    run.1[0]? = some (handle (indexClient.host.within 0) indexClient.input).toOption ∧
      run.2.get 4 = some (.connection 0) ∧ run.1[1]? = some none :=
  have hrun := forking_server byteReads (show 4 ≤ 5 by decide)
    [⟨some indexClient, true⟩, ⟨some indexClient, true⟩] fun call hcall client hclient => by
      rcases List.mem_cons.mp hcall with rfl | hcall
      · cases hclient
        exact indexClient_prints
      · cases List.mem_singleton.mp hcall
        cases hclient
        exact indexClient_prints
  ⟨(hrun.2.1 0 indexClient rfl).2.1 (by decide), hrun.2.2 0 indexClient true rfl (by decide),
    (hrun.2.1 1 indexClient rfl).2.2 rfl⟩

end Cs252.Http
