import Mlvm.Routing.Layer

/-!
# Delivery to the named server

**The header** (`Header`) is two names that fit their arrays and a TTL; a row of bytes is complete
when it begins with one. **What should happen** (`DeliversRight`): a PDU goes up if and only if its
header is complete and names this host, ignoring case, and otherwise it is dropped, or sent on with
the TTL one smaller and everything else as it was.

**The condition** (`Fair`). A host asks whether one of its names *begins* the destination, so it
takes PDUs for longer names as well, and it reads a name that is too long as if it ended where its
array does. A host without a list of aliases does not survive a PDU that is not for its own name.
None of this can happen when the bytes end before the TTL.

**Forwarding** (`Hops`). A complete header stays complete, and the TTL bounds the number of hops.
With a name that is too long anything may be sent instead, and there is no bound (`hops_iff`).

Main results: `deliversRight_iff`, `hops_iff`, `readHeader_routingDown`, put together in
`routing_delivers_iff`.
-/

namespace Mlvm.Routing

open Transport (Frame contents)
open Frames

/-! ## Headers -/

/-- A complete header. -/
structure Header where
  destination : Name
  source : Name
  ttl : UInt8

/-- The header as it is sent. -/
def Header.bytes (h : Header) : List UInt8 :=
  h.destination.array ++ h.source.array ++ [h.ttl]

/-- The server is one of the names of the host, ignoring case. -/
def Host.Named (us : Host) (n : Name) : Prop :=
  ∃ m ∈ us.names, m.chars.map toLower = n.chars.map toLower

/-! ## The reading of a header -/

/-- What the header arrays get from a row of bytes, and what is left. -/
def scan (bs : List UInt8) : List UInt8 × List UInt8 × List UInt8 :=
  let d := (firstText maxDnsNameSize bs).2
  let s := (firstText maxDnsNameSize (bs.drop d.length)).2
  (d, s, (bs.drop d.length).drop s.length)

theorem readHeader_eq (frames : List Frame) :
    match (scan (contents frames)).2.2 with
    | [] => readHeader frames = none
    | t :: payload => ∃ rest, readHeader frames =
        some ⟨(scan (contents frames)).1, (scan (contents frames)).2.1, t, rest⟩ ∧
          contents rest = payload := by
  obtain ⟨lt₁, hd, hlt₁⟩ := frameReadText_eq frames maxDnsNameSize
  obtain ⟨lt₂, hs, hlt₂⟩ := frameReadText_eq lt₁ maxDnsNameSize
  obtain ⟨lt₃, ht, hlt₃⟩ := frameReadString_eq lt₂ 1
  have hd0 : ¬ ((firstText maxDnsNameSize (contents frames)).1 : ℤ) < 0 := by omega
  have hs0 : ¬ ((firstText maxDnsNameSize (contents lt₁)).1 : ℤ) < 0 := by omega
  have hrest : (scan (contents frames)).2.2 = contents lt₂ := by rw [scan, hlt₂, hlt₁]
  have hsource : (scan (contents frames)).2.1 = (firstText maxDnsNameSize (contents lt₁)).2 := by
    rw [scan, hlt₁]
  rw [hrest, hsource]
  cases hbytes : contents lt₂ with
  | nil => simp [readHeader, hd, hs, ht, hd0, hs0, hbytes]
  | cons t payload =>
    refine ⟨lt₃, ?_, by rw [hlt₃, hbytes]; rfl⟩
    simp [readHeader, hd, hs, ht, hd0, hs0, hbytes, scan]

/-! ## Complete headers -/

theorem Name.firstText_array (n : Name) (rest : List UInt8) :
    (firstText maxDnsNameSize (n.array ++ rest)).2 = n.array := by
  rw [Name.array, List.append_assoc]
  exact firstText_append rest n.nonzero n.short

/-- A header is read as it was sent. -/
theorem scan_bytes (h : Header) (payload : List UInt8) :
    scan (h.bytes ++ payload) = (h.destination.array, h.source.array, h.ttl :: payload) := by
  have hshape : h.bytes ++ payload =
      h.destination.array ++ (h.source.array ++ h.ttl :: payload) := by
    simp [Header.bytes]
  rw [hshape, scan]
  simp [Name.firstText_array]

/-- A text that has been read stood in front. -/
theorem firstText_append_drop (max : ℕ) (bs : List UInt8) :
    (firstText max bs).2 ++ bs.drop (firstText max bs).2.length = bs := by
  induction bs generalizing max with
  | nil => cases max <;> simp [firstText]
  | cons b bs ih =>
    cases max with
    | zero => simp [firstText]
    | succ max =>
      by_cases hb : b = 0
      · simp [firstText, hb]
      · simp [firstText, hb, ih max]

/-- A zero byte that has been read is the last byte that has been read. -/
theorem firstText_of_zero {max : ℕ} {bs : List UInt8} (h : 0 ∈ (firstText max bs).2) :
    ∃ te, (firstText max bs).2 = te ++ [0] ∧ 0 ∉ te ∧ te.length < max := by
  induction bs generalizing max with
  | nil => cases max <;> simp [firstText] at h
  | cons b bs ih =>
    cases max with
    | zero => simp [firstText] at h
    | succ max =>
      by_cases hb : b = 0
      · exact ⟨[], by simp [firstText, hb]⟩
      · simp only [firstText, hb, if_false, List.mem_cons] at h ⊢
        obtain ⟨te, hte, hnot, hlen⟩ := ih (h.resolve_left fun h0 => hb h0.symm)
        refine ⟨b :: te, by rw [hte]; rfl, ?_, Nat.succ_lt_succ hlen⟩
        rw [List.mem_cons, not_or]
        exact ⟨fun h0 => hb h0.symm, hnot⟩

/-- An array with a zero byte holds a name. -/
theorem exists_name {bs : List UInt8} (h : 0 ∈ (firstText maxDnsNameSize bs).2) :
    ∃ n : Name, (firstText maxDnsNameSize bs).2 = n.array := by
  obtain ⟨te, hte, hnot, hlen⟩ := firstText_of_zero h
  exact ⟨⟨te, hnot, hlen⟩, hte⟩

/-- The bytes are what has been read. -/
theorem scan_append (bs : List UInt8) :
    (scan bs).1 ++ ((scan bs).2.1 ++ (scan bs).2.2) = bs := by
  simp only [scan]
  rw [firstText_append_drop, firstText_append_drop]

/-- **The header is complete** if both arrays have a zero byte and there is a TTL. -/
theorem exists_header {bs : List UInt8} {t : UInt8} {payload : List UInt8}
    (hd : 0 ∈ (scan bs).1) (hs : 0 ∈ (scan bs).2.1) (ht : (scan bs).2.2 = t :: payload) :
    ∃ h : Header, bs = h.bytes ++ payload ∧ (scan bs).1 = h.destination.array ∧
      (scan bs).2.1 = h.source.array ∧ h.ttl = t := by
  obtain ⟨d, hd'⟩ := exists_name hd
  obtain ⟨s, hs'⟩ := exists_name hs
  have happend := scan_append bs
  rw [ht, show (scan bs).1 = d.array from hd', show (scan bs).2.1 = s.array from hs'] at happend
  exact ⟨⟨d, s, t⟩, by simp [Header.bytes, ← happend], hd', hs', rfl⟩

theorem zero_mem_array (n : Name) : 0 ∈ n.array := by simp [Name.array]

/-- A header and what follows it are determined by the bytes. -/
theorem Header.ext_of_bytes {h h' : Header} {payload payload' : List UInt8}
    (he : h.bytes ++ payload = h'.bytes ++ payload') :
    h.destination.chars = h'.destination.chars ∧ h.source.chars = h'.source.chars ∧
      h.ttl = h'.ttl ∧ payload = payload' := by
  have hscan := congrArg scan he
  rw [scan_bytes, scan_bytes] at hscan
  simpa [Name.array] using hscan

/-! ## Going up -/

/-- What a host does with a row of bytes. -/
theorem routingUp_eq (us : Host) (frames : List Frame) :
    match (scan (contents frames)).2.2 with
    | [] => routingUp us frames = .freed
    | t :: payload => ∃ rest, contents rest = payload ∧ routingUp us frames =
        if us.known (scan (contents frames)).1 then
          .security ⟨(scan (contents frames)).1, (scan (contents frames)).2.1, t, rest⟩
        else if us.aliases = none then .crash
        else if t = 0 then .freed
        else .down ⟨(scan (contents frames)).1, (scan (contents frames)).2.1, t - 1, rest⟩ := by
  have hread := readHeader_eq frames
  cases ht : (scan (contents frames)).2.2 with
  | nil =>
    rw [ht] at hread
    simp only at hread
    simp [routingUp, hread]
  | cons t payload =>
    rw [ht] at hread
    obtain ⟨rest, hread, hrest⟩ := hread
    refine ⟨rest, hrest, ?_⟩
    simp only [routingUp, hread, Host.known, Host.names, List.any_cons]
    by_cases hname : strncasecmpEq us.hostname (scan (contents frames)).1 = true
    · simp [hname]
    · obtain ⟨hostname, aliases⟩ := us
      cases aliases <;> simp [hname]

/-! ## Going down -/

theorem cString_array (n : Name) : cString n.array = some n.chars := by
  rw [cString, if_pos (zero_mem_array n), Name.array, List.takeWhile_append_of_pos]
  · simp
  · intro b hb
    have : b ≠ 0 := fun h0 => n.nonzero (h0 ▸ hb)
    simpa using this

theorem cString_eq_none {bs : List UInt8} : cString bs = none ↔ 0 ∉ bs := by
  rw [cString]
  split_ifs with h <;> simp [h]

theorem mem_of_cString {bs te : List UInt8} (h : cString bs = some te) : 0 ∈ bs := by
  by_contra hnot
  rw [cString_eq_none.2 hnot] at h
  cases h

theorem writeText_eq_connection {avail : ℕ} {lt frames' : List Frame} {array : List UInt8}
    {next : ℕ → List Frame → Down} (h : writeText avail lt array next = .connection frames') :
    ∃ te avail' lt', cString array = some te ∧ contents lt' = te ++ [0] ++ contents lt ∧
      next avail' lt' = .connection frames' := by
  rw [writeText] at h
  cases hte : cString array with
  | none => simp [hte] at h
  | some te =>
    simp only [hte] at h
    split_ifs at h with hneg
    exact ⟨te, _, _, rfl, (contents_frameWriteString hneg).2, h⟩

theorem writeText_array_ne_fault {avail : ℕ} {lt : List Frame} (n : Name)
    {next : ℕ → List Frame → Down} (h : ∀ avail lt, next avail lt ≠ .fault) :
    writeText avail lt n.array next ≠ .fault := by
  rw [writeText, cString_array]
  simp only
  split_ifs
  · simp
  · exact h _ _

/-- **What is sent** begins with the header. -/
theorem contents_routingDown {us : Host} {forwarding : Bool} {resolve : List UInt8 → Bool}
    {avail : ℕ} {p : Pdu} {frames' : List Frame}
    (h : routingDown us forwarding resolve avail p = .connection frames') :
    ∃ d s, cString (stamp us forwarding p).destinationServer = some d ∧
      cString (stamp us forwarding p).sourceServer = some s ∧
      contents frames' = (d ++ [0]) ++ (s ++ [0]) ++ [(stamp us forwarding p).ttl] ++
        contents (stamp us forwarding p).frames := by
  rw [routingDown] at h
  cases hd : cString (stamp us forwarding p).destinationServer with
  | none => simp [hd] at h
  | some d =>
    simp only [hd] at h
    split_ifs at h with hresolve hneg
    obtain ⟨s, avail₁, lt₁, hs, hlt₁, h⟩ := writeText_eq_connection h
    obtain ⟨d', avail₂, lt₂, hd', hlt₂, h⟩ := writeText_eq_connection h
    obtain rfl : d = d' := Option.some.inj (hd.symm.trans hd')
    obtain rfl := Down.connection.inj h
    refine ⟨d, s, rfl, hs, ?_⟩
    rw [hlt₂, hlt₁, (contents_frameWriteString hneg).2]
    simp

theorem routingDown_ne_fault {us : Host} {resolve : List UInt8 → Bool} {avail : ℕ} (d s : Name)
    (ttl : UInt8) (frames : List Frame) :
    routingDown us true resolve avail ⟨d.array, s.array, ttl, frames⟩ ≠ .fault := by
  rw [routingDown]
  simp only [stamp, if_true, cString_array]
  split_ifs
  · simp
  · exact writeText_array_ne_fault s fun _ _ =>
      writeText_array_ne_fault d fun _ _ => by simp
  · simp

/-- With a route and a frame, an array without a zero byte is met. -/
theorem routingDown_eq_fault {us : Host} {p : Pdu}
    (h : 0 ∉ p.destinationServer ∨ 0 ∉ p.sourceServer) :
    routingDown us true (fun _ => true) 1 p = .fault := by
  rw [routingDown]
  simp only [stamp, if_true]
  cases hd : cString p.destinationServer with
  | none => rfl
  | some d =>
    have hs : cString p.sourceServer = none := by
      refine cString_eq_none.2 (h.resolve_left fun hnot => ?_)
      rw [cString_eq_none.2 hnot] at hd
      cases hd
    have hneg : ¬ (Frames.frameWriteString 1 p.frames [p.ttl]).1 < 0 := by
      rcases frameWriteString_eq 1 p.frames [p.ttl] with ⟨-, -, s', hrun, -⟩ | ⟨hfull, -, -⟩
      · rw [hrun]
        simp
      · simp only [capacity, Transport.sizeOfFrame, List.length_singleton] at hfull
        omega
    simp only [if_neg hneg, writeText, hs]

/-! ## Delivery -/

/-- What becomes of an incoming PDU. -/
inductive Outcome where
  | security (p : Pdu)
  | connection (frames : List Frame)
  | dropped
  | fault
  | crash

/-- A PDU comes in, and goes out again when it is forwarded. -/
def route (us : Host) (resolve : List UInt8 → Bool) (avail : ℕ) (frames : List Frame) : Outcome :=
  match routingUp us frames with
  | .security p => .security p
  | .freed => .dropped
  | .crash => .crash
  | .down p =>
    match routingDown us true resolve avail p with
    | .connection frames' => .connection frames'
    | .refused => .dropped
    | .fault => .fault

/-- The header is complete and names this host. -/
def ForUs (us : Host) (bs : List UInt8) : Prop :=
  ∃ (h : Header) (payload : List UInt8), bs = h.bytes ++ payload ∧ us.Named h.destination

/-- What is right for the bytes `bs`. -/
def RightOutcome (us : Host) (bs : List UInt8) : Outcome → Prop
  | .security p => ∃ (h : Header) (payload : List UInt8), bs = h.bytes ++ payload ∧
      us.Named h.destination ∧ p.destinationServer = h.destination.array ∧
      p.sourceServer = h.source.array ∧ contents p.frames = payload
  | .connection frames => ¬ ForUs us bs ∧ ∃ (h : Header) (payload : List UInt8),
      bs = h.bytes ++ payload ∧ 0 < h.ttl ∧
      contents frames = ({ h with ttl := h.ttl - 1 } : Header).bytes ++ payload
  | .dropped => ¬ ForUs us bs
  | .fault => False
  | .crash => False

/-- **Delivery to the named server**, whatever the routes, and however the bytes stand in
frames. -/
def DeliversRight (us : Host) (bs : List UInt8) : Prop :=
  ∀ frames, contents frames = bs → ∀ resolve avail,
    RightOutcome us bs (route us resolve avail frames)

/-- **The condition**: if the bytes go as far as a TTL, the header is complete and the destination
does not just begin with a name of the host, or the TTL is 0 and it does not begin with one; and
there is a list of aliases, or the destination begins with the name of the host. -/
def Fair (us : Host) (bs : List UInt8) : Prop :=
  ∀ t payload, (scan bs).2.2 = t :: payload →
    ((∃ h : Header, bs = h.bytes ++ payload ∧
      (us.known h.destination.array → us.Named h.destination)) ∨
    (t = 0 ∧ us.known (scan bs).1 = false)) ∧
    (us.aliases = none → us.known (scan bs).1 = true)

/-! ## The condition is exact -/

/-- A name of the host begins the array of the same name. -/
theorem known_of_named {us : Host} {n : Name} (h : us.Named n) : us.known n.array = true := by
  obtain ⟨m, hm, heq⟩ := h
  rw [Host.known, List.any_eq_true]
  refine ⟨m, hm, ?_⟩
  rw [strncasecmpEq, List.isPrefixOf_iff_prefix, Name.array, List.map_append, heq]
  exact List.prefix_append _ _

/-- The destination of a complete header decides. -/
theorem forUs_iff {us : Host} {h : Header} {payload : List UInt8} :
    ForUs us (h.bytes ++ payload) ↔ us.Named h.destination := by
  constructor
  · rintro ⟨h', payload', heq, m, hm, hname⟩
    exact ⟨m, hm, by rw [hname, (Header.ext_of_bytes heq).1]⟩
  · intro hname
    exact ⟨h, payload, rfl, hname⟩

/-- A PDU for a host is known to it. -/
theorem ForUs.known {us : Host} {bs : List UInt8} (h : ForUs us bs) :
    us.known (scan bs).1 = true ∧ (scan bs).2.2 ≠ [] := by
  obtain ⟨h, payload, rfl, hname⟩ := h
  rw [scan_bytes]
  exact ⟨known_of_named hname, List.cons_ne_nil _ _⟩

/-- **What is sent on.** -/
theorem contents_of_forward {us : Host} {resolve : List UInt8 → Bool} {avail : ℕ} {h : Header}
    {frames frames' : List Frame}
    (hsent : routingDown us true resolve avail
      ⟨h.destination.array, h.source.array, h.ttl, frames⟩ = .connection frames') :
    contents frames' = h.bytes ++ contents frames := by
  obtain ⟨d, s, hd, hs, hcontents⟩ := contents_routingDown hsent
  rw [stamp, if_pos rfl] at hd hs
  rw [cString_array] at hd hs
  obtain rfl := Option.some.inj hd
  obtain rfl := Option.some.inj hs
  exact hcontents

/-- A host that is fair to the bytes does what is right. -/
theorem Fair.deliversRight {us : Host} {bs : List UInt8} (hfair : Fair us bs) :
    DeliversRight us bs := by
  rintro frames rfl resolve avail
  have hup := routingUp_eq us frames
  cases ht : (scan (contents frames)).2.2 with
  | nil =>
    simp only [ht] at hup
    rw [route, hup]
    intro hours
    exact hours.known.2 ht
  | cons t payload =>
    simp only [ht] at hup
    obtain ⟨rest, hrest, hup⟩ := hup
    rw [route, hup]
    obtain ⟨hcomplete, haliases⟩ := hfair t payload ht
    rcases hcomplete with ⟨h, hbytes, hnamed⟩ | ⟨rfl, hunknown⟩
    · -- the header is complete
      have hscan := scan_bytes h payload
      rw [← hbytes] at hscan
      obtain rfl : h.ttl = t := by
        have := congrArg (fun x => x.2.2) hscan
        rw [ht] at this
        simpa using this.symm
      rw [hscan] at haliases ⊢
      split_ifs with hknown hnone hzero
      · exact ⟨h, payload, hbytes, hnamed hknown, rfl, rfl, hrest⟩
      · exact absurd (haliases hnone) hknown
      · intro hours
        rw [hbytes, forUs_iff] at hours
        exact hknown (known_of_named hours)
      · have hours : ¬ ForUs us (contents frames) := by
          rw [hbytes, forUs_iff]
          exact fun hours => hknown (known_of_named hours)
        simp only
        cases hdown : routingDown us true resolve avail
            ⟨h.destination.array, h.source.array, h.ttl - 1, rest⟩ with
        | connection frames' =>
          refine ⟨hours, h, payload, hbytes, UInt8.pos_iff_ne_zero.2 hzero, ?_⟩
          rw [← hrest]
          exact contents_of_forward (h := { h with ttl := h.ttl - 1 }) hdown
        | refused => exact hours
        | fault => exact routingDown_ne_fault _ _ _ _ hdown
    · -- nothing is taken for this host
      have hsome : us.aliases ≠ none := by
        intro hnone
        rw [haliases hnone] at hunknown
        cases hunknown
      rw [hunknown, if_neg (by decide), if_neg hsome]
      intro hours
      rw [hours.known.1] at hunknown
      cases hunknown

/-- A host that does what is right is fair to the bytes: forwarding an incomplete header comes to an
array without a zero byte. -/
theorem DeliversRight.fair {us : Host} {bs : List UInt8} (hright : DeliversRight us bs) :
    Fair us bs := by
  intro t payload ht
  obtain ⟨frames, rfl⟩ := exists_frames bs
  have hroute := hright frames rfl (fun _ => true) 1
  have hup := routingUp_eq us frames
  simp only [ht] at hup
  obtain ⟨rest, hrest, hup⟩ := hup
  rw [route, hup] at hroute
  by_cases hknown : us.known (scan (contents frames)).1 = true
  · rw [if_pos hknown] at hroute
    obtain ⟨h, payload', hbytes, hnamed, -, -, hpayload⟩ := hroute
    refine ⟨.inl ⟨h, ?_, fun _ => hnamed⟩, fun _ => hknown⟩
    rw [hbytes, ← hpayload]
    simp [hrest]
  · rw [if_neg hknown] at hroute
    have hsome : us.aliases ≠ none := by
      intro hnone
      rw [if_pos hnone] at hroute
      exact hroute
    rw [if_neg hsome] at hroute
    refine ⟨?_, fun hnone => absurd hnone hsome⟩
    by_cases hzero : t = 0
    · exact .inr ⟨hzero, by simpa using hknown⟩
    · rw [if_neg hzero] at hroute
      by_cases hnames : 0 ∈ (scan (contents frames)).1 ∧ 0 ∈ (scan (contents frames)).2.1
      · obtain ⟨h, hbytes, hd, -, -⟩ := exists_header hnames.1 hnames.2 ht
        refine .inl ⟨h, hbytes, fun hk => absurd ?_ hknown⟩
        rwa [hd]
      · have hfault := @routingDown_eq_fault us
          ⟨(scan (contents frames)).1, (scan (contents frames)).2.1, t - 1, rest⟩
          (not_and_or.1 hnames)
        simp only [hfault] at hroute
        exact hroute.elim

/-- **A host does what is right exactly for the bytes it is fair to.** -/
theorem deliversRight_iff {us : Host} {bs : List UInt8} : DeliversRight us bs ↔ Fair us bs :=
  ⟨DeliversRight.fair, Fair.deliversRight⟩

/-! ## Forwarding -/

/-- A PDU that comes in as the bytes `bs` has been forwarded `n` times when it comes in, or goes
out, as `bs'`; each time by any host, with any routes. After a fault anything can be sent. -/
inductive Hops : ℕ → List UInt8 → List UInt8 → Prop
  | here (bs : List UInt8) : Hops 0 bs bs
  | forward {n : ℕ} {frames frames' : List Frame} {bs' : List UInt8} (us : Host)
      (resolve : List UInt8 → Bool) (avail : ℕ)
      (hsent : route us resolve avail frames = .connection frames')
      (hnext : Hops n (contents frames') bs') : Hops (n + 1) (contents frames) bs'
  | undefined {n : ℕ} {frames : List Frame} {bs bs' : List UInt8} (us : Host)
      (resolve : List UInt8 → Bool) (avail : ℕ) (hfault : route us resolve avail frames = .fault)
      (hnext : Hops n bs bs') : Hops (n + 1) (contents frames) bs'

/-- If the bytes go as far as a TTL that is not 0, both names fit into their arrays. -/
def Whole (bs : List UInt8) : Prop :=
  ∀ t payload, (scan bs).2.2 = t :: payload → t ≠ 0 → 0 ∈ (scan bs).1 ∧ 0 ∈ (scan bs).2.1

/-- What is forwarded, or would be, has a TTL that is not 0. -/
theorem route_forwards {us : Host} {resolve : List UInt8 → Bool} {avail : ℕ} {frames : List Frame}
    (h : route us resolve avail frames = .fault ∨
      ∃ frames', route us resolve avail frames = .connection frames') :
    ∃ t payload rest, (scan (contents frames)).2.2 = t :: payload ∧ t ≠ 0 ∧
      contents rest = payload ∧ routingUp us frames =
        .down ⟨(scan (contents frames)).1, (scan (contents frames)).2.1, t - 1, rest⟩ := by
  have hup := routingUp_eq us frames
  cases ht : (scan (contents frames)).2.2 with
  | nil =>
    simp only [ht] at hup
    simp [route, hup] at h
  | cons t payload =>
    simp only [ht] at hup
    obtain ⟨rest, hrest, hup⟩ := hup
    rw [route, hup] at h
    split_ifs at h with hknown hnone hzero
    · simp at h
    · simp at h
    · simp at h
    · exact ⟨t, payload, rest, rfl, hzero, hrest, by
        rw [hup, if_neg hknown, if_neg hnone, if_neg hzero]⟩

/-- **One hop** takes one from a TTL that is not 0, and leaves a complete header. -/
theorem scan_of_forward {us : Host} {resolve : List UInt8 → Bool} {avail : ℕ}
    {frames frames' : List Frame} (hsent : route us resolve avail frames = .connection frames') :
    ∃ t payload, (scan (contents frames)).2.2 = t :: payload ∧ t ≠ 0 ∧
      (scan (contents frames')).2.2 = (t - 1) :: payload ∧ Whole (contents frames') := by
  obtain ⟨t, payload, rest, ht, hzero, hrest, hup⟩ := route_forwards (.inr ⟨_, hsent⟩)
  rw [route, hup] at hsent
  simp only at hsent
  cases hdown : routingDown us true resolve avail
      ⟨(scan (contents frames)).1, (scan (contents frames)).2.1, t - 1, rest⟩ with
  | connection sent =>
    simp only [hdown] at hsent
    obtain rfl := Outcome.connection.inj hsent
    obtain ⟨d, s, hd, hs, -⟩ := contents_routingDown hdown
    rw [stamp, if_pos rfl] at hd hs
    obtain ⟨h, -, hd', hs', rfl⟩ := exists_header (mem_of_cString hd) (mem_of_cString hs) ht
    rw [hd', hs'] at hdown
    have hscan := scan_bytes { h with ttl := h.ttl - 1 } (contents rest)
    rw [← contents_of_forward (h := { h with ttl := h.ttl - 1 }) hdown] at hscan
    refine ⟨h.ttl, payload, ht, hzero, by rw [hscan, hrest], fun _ _ _ _ => ?_⟩
    rw [hscan]
    exact ⟨zero_mem_array _, zero_mem_array _⟩
  | refused => simp [hdown] at hsent
  | fault => simp [hdown] at hsent

/-- Names that fit into their arrays are no fault. -/
theorem Whole.ne_fault {frames : List Frame} (h : Whole (contents frames)) (us : Host)
    (resolve : List UInt8 → Bool) (avail : ℕ) : route us resolve avail frames ≠ .fault := by
  intro hfault
  obtain ⟨t, payload, rest, ht, hzero, -, hup⟩ := route_forwards (.inl hfault)
  obtain ⟨hd, hs⟩ := h t payload ht hzero
  obtain ⟨header, -, hd', hs', -⟩ := exists_header hd hs ht
  rw [route, hup, hd', hs'] at hfault
  simp only at hfault
  cases hdown : routingDown us true resolve avail
      ⟨header.destination.array, header.source.array, t - 1, rest⟩ with
  | connection => simp [hdown] at hfault
  | refused => simp [hdown] at hfault
  | fault => exact routingDown_ne_fault _ _ _ _ hdown

/-- A PDU is forwarded at most as often as its TTL says. -/
theorem Hops.le_ttl {n : ℕ} {bs bs' : List UInt8} (hops : Hops n bs bs') (hwhole : Whole bs)
    {t : UInt8} {payload : List UInt8} (ht : (scan bs).2.2 = t :: payload) : n ≤ t.toNat := by
  induction hops generalizing t payload with
  | here => exact Nat.zero_le _
  | forward us resolve avail hsent _ ih =>
    obtain ⟨t', payload', ht', hpos, hnext, hwhole'⟩ := scan_of_forward hsent
    obtain rfl : t' = t := by
      rw [ht] at ht'
      exact (List.cons.inj ht').1.symm
    have hle := ih hwhole' hnext
    have hone : 1 ≤ t'.toNat := by
      refine Nat.one_le_iff_ne_zero.2 fun h0 => hpos ?_
      exact UInt8.toNat_inj.1 h0
    rw [UInt8.toNat_sub_of_le _ _ (UInt8.le_iff_toNat_le.2 (by simpa using hone))] at hle
    exact (Nat.le_sub_iff_add_le hone).1 hle
  | undefined us resolve avail hfault => exact absurd hfault (hwhole.ne_fault us resolve avail)

/-- **A PDU is forwarded at most 255 times**, in any network, when its names fit. -/
theorem hops_le {n : ℕ} {bs bs' : List UInt8} (hops : Hops n bs bs') (hwhole : Whole bs) :
    n ≤ 255 := by
  cases hops with
  | here => exact Nat.zero_le _
  | forward us resolve avail hsent hnext =>
    obtain ⟨t, payload, ht, -, -, -⟩ := scan_of_forward hsent
    have hle := (Hops.forward us resolve avail hsent hnext).le_ttl hwhole ht
    exact hle.trans (Nat.le_of_lt_succ t.toNat_lt)
  | undefined us resolve avail hfault => exact absurd hfault (hwhole.ne_fault us resolve avail)

/-- For every destination there is a host that is not it. -/
theorem exists_unknown (destination : List UInt8) : ∃ us : Host, us.aliases = some [] ∧
    us.known destination = false := by
  have hother : ∀ n : Name, (n.chars.map toLower).head? ≠ (destination.map toLower).head? →
      n.chars ≠ [] → strncasecmpEq n destination = false := by
    intro n hhead hne
    rw [← Bool.not_eq_true, strncasecmpEq, List.isPrefixOf_iff_prefix]
    rintro ⟨rest, heq⟩
    obtain ⟨c, cs, hchars⟩ := List.exists_cons_of_ne_nil hne
    rw [← heq, hchars] at hhead
    exact hhead rfl
  by_cases hone : (destination.map toLower).head? = some 1
  · refine ⟨⟨⟨[2], by decide, by decide⟩, some []⟩, rfl, ?_⟩
    have hno := hother ⟨[2], by decide, by decide⟩ (by rw [hone]; decide) (by decide)
    simp [Host.known, Host.names, hno]
  · refine ⟨⟨⟨[1], by decide, by decide⟩, some []⟩, rfl, ?_⟩
    have hno := hother ⟨[1], by decide, by decide⟩ (fun h => hone h.symm) (by decide)
    simp [Host.known, Host.names, hno]

/-- A name that does not fit is a fault somewhere. -/
theorem exists_fault {frames : List Frame} (h : ¬ Whole (contents frames)) :
    ∃ us, route us (fun _ => true) 1 frames = .fault := by
  simp only [Whole, not_forall] at h
  obtain ⟨t, payload, ht, hzero, hnames⟩ := h
  obtain ⟨us, haliases, hunknown⟩ := exists_unknown (scan (contents frames)).1
  have hup := routingUp_eq us frames
  simp only [ht] at hup
  obtain ⟨rest, -, hup⟩ := hup
  have hfault := @routingDown_eq_fault us
    ⟨(scan (contents frames)).1, (scan (contents frames)).2.1, t - 1, rest⟩ (not_and_or.1 hnames)
  refine ⟨us, ?_⟩
  rw [route, hup, hunknown, haliases]
  simp [hzero, hfault]

/-- **The bound holds exactly for names that fit.** -/
theorem hops_iff {bs : List UInt8} : (∀ n bs', Hops n bs bs' → n ≤ 255) ↔ Whole bs := by
  refine ⟨fun hbound => ?_, fun hwhole n bs' hops => hops_le hops hwhole⟩
  by_contra hnot
  obtain ⟨frames, rfl⟩ := exists_frames bs
  obtain ⟨us, hfault⟩ := exists_fault hnot
  have hops : ∀ n, Hops n (contents frames) (contents frames) := by
    intro n
    induction n with
    | zero => exact .here _
    | succ n ih => exact .undefined us _ 1 hfault ih
  exact absurd (hbound 256 _ (hops 256)) (by decide)

/-! ## The round trip -/

/-- **What `routing_down` has written is read back by `routing_up`.** -/
theorem readHeader_routingDown {us : Host} {forwarding : Bool} {resolve : List UInt8 → Bool}
    {avail : ℕ} {d s : Name} {ttl : UInt8} {frames frames' : List Frame}
    (h : routingDown us forwarding resolve avail ⟨d.array, s.array, ttl, frames⟩ =
      .connection frames') :
    ∃ rest, contents rest = contents frames ∧ readHeader frames' =
      some { stamp us forwarding ⟨d.array, s.array, ttl, frames⟩ with frames := rest } := by
  obtain ⟨d', s', hd, hs, hcontents⟩ := contents_routingDown h
  have hd' : d.chars = d' := by
    cases forwarding <;> simpa [stamp, cString_array] using hd
  obtain ⟨n, hn⟩ : ∃ n : Name, (stamp us forwarding ⟨d.array, s.array, ttl, frames⟩).sourceServer =
      n.array := by
    cases forwarding
    · exact ⟨us.hostname, rfl⟩
    · exact ⟨s, rfl⟩
  rw [hn, cString_array] at hs
  obtain rfl := Option.some.inj hs
  subst hd'
  have hbytes : contents frames' =
      (⟨d, n, (stamp us forwarding ⟨d.array, s.array, ttl, frames⟩).ttl⟩ : Header).bytes ++
        contents frames := by
    rw [hcontents]
    cases forwarding <;> rfl
  have hread := readHeader_eq frames'
  rw [hbytes, scan_bytes] at hread
  obtain ⟨rest, hread, hrest⟩ := hread
  refine ⟨rest, hrest, ?_⟩
  rw [hread, ← hn]
  cases forwarding <;> rfl

end Mlvm.Routing
