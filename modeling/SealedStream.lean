import SealedStream.Bus.Script
import SealedStream.Proofs.Agenda.Rehearsing
import SealedStream.Proofs.Agenda.Timetable
import SealedStream.Proofs.Peer.OnTime
import SealedStream.Proofs.Peer.Stopped
import SealedStream.Proofs.Rollover.CatchUp
import SealedStream.Proofs.Rollover.Survival
import SealedStream.Proofs.SeenWindow.Marking
import SealedStream.Proofs.Station.Faults
import SealedStream.Proofs.Station.Leftovers
import SealedStream.Proofs.Station.Meeting
import SealedStream.Proofs.Station.Premature
import SealedStream.Proofs.Station.Removal
import SealedStream.Proofs.Station.Replays
import SealedStream.Proofs.Station.Restarting
import SealedStream.Proofs.Station.Retrying
import SealedStream.Proofs.Station.Seals
import SealedStream.Proofs.Stream.Accounting
import SealedStream.Proofs.Stream.Reordering
import SealedStream.Proofs.Stream.RoundTrip
import SealedStream.Proofs.Stream.Truncation
import SealedStream.Proofs.Vault.Forward
