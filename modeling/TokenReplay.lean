import TokenReplay.Dump
import TokenReplay.Factory
import TokenReplay.Lifetime
import TokenReplay.Registers
import TokenReplay.Session
import TokenReplay.Source
import TokenReplay.Source.Op
import TokenReplay.Source.Pass
import TokenReplay.Source.Record
import TokenReplay.Stream
import TokenReplay.Token
import TokenReplay.Token.Display
import TokenReplay.Token.Ending
import TokenReplay.Workspace
import TokenReplay.Workspace.Command
import TokenReplay.Workspace.Exec
import TokenReplay.Proofs.Advance
import TokenReplay.Proofs.Haul
import TokenReplay.Proofs.History
import TokenReplay.Proofs.Replay
import TokenReplay.Proofs.Factories
import TokenReplay.Proofs.EofCreation
import TokenReplay.Proofs.Place
import TokenReplay.Proofs.Overflow
import TokenReplay.Proofs.Stretch
import TokenReplay.Proofs.Failure
import TokenReplay.Proofs.Twin
import TokenReplay.Proofs.Recording
import TokenReplay.Proofs.Segments
import TokenReplay.Proofs.EndColumn
import TokenReplay.Proofs.TrueEnd
import TokenReplay.Proofs.Tiling
import TokenReplay.Proofs.Log
import TokenReplay.Proofs.Account
import TokenReplay.Proofs.Commands
import TokenReplay.Proofs.Silence
import TokenReplay.Proofs.Quiet
import TokenReplay.Proofs.Custody
import TokenReplay.Proofs.Lifetimes
import TokenReplay.Proofs.Reading
import TokenReplay.Proofs.Copying
import TokenReplay.Proofs.Lines
import TokenReplay.Proofs.Halting
import TokenReplay.Proofs.SecondPass
