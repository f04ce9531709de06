import SysProg.Booking.Limit
import SysProg.Booking.Isolation
import SysProg.Booking.Refusal
import SysProg.Booking.Interleave
import SysProg.Booking.Indices
import SysProg.Booking.Command
import SysProg.Booking.Neighbour
import SysProg.Booking.Reuse
import SysProg.Booking.Dialogue
import SysProg.Threads.Solo
import SysProg.Threads.Sweeps
import SysProg.Threads.Overtaking
import SysProg.Threads.Fibonacci
import SysProg.Threads.Collatz
import SysProg.Threads.Subarray
import SysProg.Movies.Thread
import SysProg.Movies.Forks
import SysProg.Movies.Halves
import SysProg.Movies.Builds
import SysProg.Movies.Crowd
import SysProg.Tournament.Agreement
import SysProg.Tournament.Chain
import SysProg.Tournament.HandOver
import SysProg.Tournament.Integrity
import SysProg.Tournament.Seats
import SysProg.Tournament.Courses
import SysProg.Tournament.Fight
import SysProg.Booking.Atomic
import SysProg.Booking.Bytes
import SysProg.Booking.Loop
import SysProg.Tournament.Mirror
import SysProg.Threads.Clock
import SysProg.Threads.Finish
